import Mathlib.Data.List.TakeWhile
import LinterClient.Proofs.Glob.Ends
import LinterClient.Proofs.Text.Utf8
import LinterClient.Proofs.WorkingDirectory

/-!
Patterns that are relative to the folder.

The folder's path is put before the pattern as it is, and read as part of the glob. So a pattern finds its
directories below the folder just if no character of the folder's path means something in a glob.
-/

namespace LinterClient.WorkingDirectory

open Glob (IsLiteral)

/-- Whether a pattern is put below the folder as it is. -/
def IsBelowFolder (pattern : String) : Prop :=
  pattern ≠ "" ∧ pattern.toList.head? ≠ some '/' ∧ pattern.toList.head? ≠ some '.'
deriving Decidable

/-- What the paths of the files below a folder start with. -/
def front (root : FilePath) : String :=
  trimSlashes root.text ++ "/"

/-- A pattern matches a file below the folder as its glob matches what follows the folder's path, and
matches no other file. -/
def RelativeTo (root : FilePath) (pattern file : String) : Prop :=
  (∀ rest, file = front root ++ rest →
    matchPattern? pattern (some file) (some root) =
      (Glob.match? (withSlash pattern) rest).map (front root ++ ·)) ∧
  (¬ (front root).toList <+: file.toList → matchPattern? pattern (some file) (some root) = none)

theorem mem_trimSlashes {s : String} {c : Char} (member : c ∈ (trimSlashes s).toList) : c ∈ s.toList := by
  rw [trimSlashes, String.toList_ofList, List.mem_reverse] at member
  exact List.mem_reverse.mp ((List.dropWhile_sublist _).subset member)

theorem mem_trimSlashes_or {s : String} {c : Char} (member : c ∈ s.toList) :
    c ∈ (trimSlashes s).toList ∨ c = '/' := by
  rw [trimSlashes, String.toList_ofList, List.mem_reverse]
  have parts := List.takeWhile_append_dropWhile (p := fun c => decide (c = '/')) (l := s.toList.reverse)
  rw [← List.mem_reverse, ← parts, List.mem_append] at member
  rcases member with slashes | member
  · exact Or.inr (by simpa using List.mem_takeWhile_imp slashes)
  · exact Or.inl member

theorem isLiteral_slash : IsLiteral '/' := by
  simp [IsLiteral]

theorem isLiteral_front_iff {root : FilePath} :
    (∀ c ∈ (front root).toList, IsLiteral c) ↔ ∀ c ∈ root.text.toList, IsLiteral c := by
  rw [front, String.toList_append]
  constructor
  · intro literals c member
    rcases mem_trimSlashes_or member with inside | rfl
    · exact literals c (List.mem_append_left _ inside)
    · exact isLiteral_slash
  · intro literals c member
    rcases List.mem_append.mp member with inside | slash
    · exact literals c (mem_trimSlashes inside)
    · rw [List.mem_singleton.mp slash]
      exact isLiteral_slash

/-- The glob of a pattern below the folder is the folder's path with the pattern behind it. -/
theorem fullPattern_below {pattern : String} (below : IsBelowFolder pattern) (root : FilePath) :
    fullPattern pattern (some root) = front root ++ withSlash pattern := by
  obtain ⟨filled, noSlash, noDot⟩ := below
  have relative : pattern.startsWith "/" = false := by
    rw [Bool.eq_false_iff]
    intro start
    obtain ⟨rest, chars⟩ := String.startsWith_string_iff.mp start
    exact noSlash (by rw [← chars]; rfl)
  have whole : dropDotSlashes pattern.toList = pattern.toList := by
    cases chars : pattern.toList with
    | nil => rfl
    | cons c rest =>
      rw [dropDotSlashes]
      intro more same
      rw [chars, same] at noDot
      exact noDot rfl
  simp only [fullPattern, relative, Bool.false_eq_true, if_false, whole, String.ofList_toList]
  exact withSlash_append (front root) filled

theorem matchPattern?_below {pattern : String} (below : IsBelowFolder pattern) (root : FilePath)
    (file : String) :
    matchPattern? pattern (some file) (some root) = Glob.match? (front root ++ withSlash pattern) file := by
  rw [matchPattern?, Option.bind_some, if_neg below.1, fullPattern_below below]

/-- A folder's path without characters that mean something in a glob stands for itself. -/
theorem relativeTo_of_literal {root : FilePath} (literals : ∀ c ∈ root.text.toList, IsLiteral c)
    {pattern : String} (below : IsBelowFolder pattern) (file : String) : RelativeTo root pattern file := by
  rw [RelativeTo, matchPattern?_below below]
  exact Glob.match?_literal (isLiteral_front_iff.mpr literals) (withSlash pattern) file

/-- The shortest text that the glob of the pattern `a` matches is a directory of that name, and if it lies below
the folder, it is as long as the glob. -/
theorem literal_of_relativeTo {root : FilePath} (line : '\n' ∉ root.text.toList)
    (relative : ∀ pattern file : String, IsBelowFolder pattern → '\n' ∉ file.toList →
      RelativeTo root pattern file) :
    ∀ c ∈ root.text.toList, IsLiteral c := by
  have below : IsBelowFolder "a" := by simp [IsBelowFolder]
  have closed : withSlash "a" = "a/" := by decide +kernel
  have frontLine : '\n' ∉ (front root ++ "a/").toList := by
    rw [front, String.toList_append, String.toList_append]
    simp only [List.mem_append, not_or]
    exact ⟨⟨fun member => line (mem_trimSlashes member), by decide⟩, by decide⟩
  -- a directory of the folder's name is found, so the glob is accepted
  have itself : Glob.match? (front root ++ "a/") (front root ++ "a/") = some (front root ++ "a/") := by
    have found := (relative "a" (front root ++ "a/") below frontLine).1 "a/" rfl
    have name : Glob.match? "a/" "a/" = some "a/" := by decide +kernel
    rw [matchPattern?_below below, closed, name, Option.map_some] at found
    exact found
  obtain ⟨w, found, wordLine, short, literal⟩ := Glob.match?_exists_short itself frontLine
  have placed := relative "a" w below wordLine
  rw [RelativeTo, matchPattern?_below below, closed] at placed
  have start : (front root).toList <+: w.toList := by
    by_contra other
    rw [placed.2 other] at found
    cases found
  obtain ⟨rest, split⟩ := start
  have whole : w = front root ++ String.ofList rest := by simp [← String.toList_inj, split]
  have named : "a/".toList <+: rest := by
    by_contra other
    have literals : ∀ c ∈ "a/".toList, IsLiteral c := by simp [IsLiteral]
    have nothing := (Glob.match?_literal literals "" (String.ofList rest)).2 (by simpa using other)
    rw [String.append_empty] at nothing
    rw [placed.1 (String.ofList rest) whole, nothing] at found
    cases found
  obtain ⟨more, rfl⟩ := named
  have empty : more = [] := by
    rw [← split, String.toList_append, List.length_append, List.length_append, List.length_append] at short
    exact List.length_eq_zero_iff.mp (by omega)
  subst empty
  have literals := literal (by simp [whole])
  apply isLiteral_front_iff.mp
  intro c member
  exact literals c (by simp [member])

/-- Patterns are relative to the folder if all characters of the folder's path mean themselves in a glob,
and for a folder's path of one line only then. -/
theorem matchPattern?_relative (root : FilePath) :
    ((∀ c ∈ root.text.toList, IsLiteral c) →
      ∀ pattern file, IsBelowFolder pattern → RelativeTo root pattern file) ∧
    ('\n' ∉ root.text.toList →
      (∀ pattern file : String, IsBelowFolder pattern → '\n' ∉ file.toList → RelativeTo root pattern file) →
      ∀ c ∈ root.text.toList, IsLiteral c) :=
  ⟨fun literals _ file below => relativeTo_of_literal literals below file, literal_of_relativeTo⟩

theorem matchPattern?_relative_brackets :
    matchPattern? "src" (some "/ws/src/a.js") (some (.ofString "/ws")) = some "/ws/src/" ∧
      ¬ ∀ pattern file : String, IsBelowFolder pattern → '\n' ∉ file.toList →
        RelativeTo (.ofString "/w[s]") pattern file := by
  have plain : ∀ c ∈ (FilePath.ofString "/ws").text.toList, IsLiteral c := by
    have text : (FilePath.ofString "/ws").text = "/ws" := by decide +kernel
    simp [text, IsLiteral]
  have start : front (.ofString "/ws") = "/ws/" := by decide +kernel
  have name : Glob.match? (withSlash "src") "src/a.js" = some "src/" := by decide +kernel
  have found := ((matchPattern?_relative (.ofString "/ws")).1 plain "src" "/ws/src/a.js" (by decide)).1
    "src/a.js" (by rw [start]; rfl)
  rw [start, name] at found
  refine ⟨found, fun relative => ?_⟩
  have literals := (matchPattern?_relative (.ofString "/w[s]")).2 (by decide +kernel) relative
  exact (literals '[' (by decide +kernel)).2.2.1 rfl

end LinterClient.WorkingDirectory
