import LinterClient.Proofs.WorkingDirectory.Placement

/-!
Patterns whose alternatives stand in another order.

In every order a pattern finds a directory for the same files. But it may find another one: the first alternative that
leads on is taken, also if a later one leads further. So the longest directory is found in every order just if the
choices that may be made all lead to it, as they do when the alternatives of a group are equally long.
-/

namespace LinterClient.WorkingDirectory

open Glob (Reads Run Reordered MayMatch IsLongest)

/-- Whether the order of a pattern's alternatives does not matter for a file: in every order the same is found, and that
is the longest start of the file's path that the pattern matches with its slash. -/
def IsOrderFree (pattern : String) (root : Option FilePath) (file : String) : Prop :=
  ∀ other, Reordered pattern other →
    matchPattern? other (some file) root = matchPattern? pattern (some file) root ∧
      ∀ d, matchPattern? other (some file) root = some d → IsLongest (fullPattern pattern root) file d

/-- Whether all choices of a pattern are between texts of one length. -/
def IsUniform (pattern : String) : Prop :=
  ∃ run, Reads pattern run ∧ run.Uniform

variable {root : Option FilePath} {pattern other file d : String}

theorem matchPattern?_filled (filled : pattern ≠ "") (file : String) :
    matchPattern? pattern (some file) root = Glob.match? (fullPattern pattern root) file := by
  rw [matchPattern?, Option.bind_some, if_neg filled]

theorem filled_of_matchPattern? (found : (matchPattern? pattern (some file) root).isSome) : pattern ≠ "" := by
  rintro rfl
  cases found

theorem head?_of_reordered (reordered : Reordered pattern other) : other.toList.head? = pattern.toList.head? := by
  obtain ⟨run, run', reads, reads', same⟩ := reordered
  rw [← reads.2, ← reads'.2]
  exact same.head?_text

theorem eq_empty_of_reordered (reordered : Reordered pattern other) : other = "" ↔ pattern = "" := by
  have none (s : String) : s = "" ↔ s.toList.head? = none := by
    rw [List.head?_eq_none_iff, String.toList_eq_nil_iff]
  rw [none other, none pattern, head?_of_reordered reordered]

theorem plainFor_of_reordered (reordered : Reordered pattern other) (plain : IsPlainFor root pattern) :
    IsPlainFor root other := by
  intro folder inside start
  rw [head?_of_reordered reordered] at start
  exact plain folder inside start

theorem reordered_fullPattern (plain : IsPlainFor root pattern) (reordered : Reordered pattern other) :
    Reordered (fullPattern pattern root) (fullPattern other root) := by
  have plain' := plainFor_of_reordered reordered plain
  obtain ⟨run, run', reads, reads', same⟩ := reordered
  exact ⟨_, _, reads_placed plain reads, reads_placed plain' reads', reordered_placed same⟩

/-- What differs from the whole pattern only in the order of alternatives is the whole pattern of one that does. -/
theorem exists_reordered_of_fullPattern (plain : IsPlainFor root pattern) {run run' : Run}
    (reads : Reads (fullPattern pattern root) run) (reordered : run.Reordered run') :
    ∃ other, Reordered pattern other ∧ Reads (fullPattern other root) run' := by
  obtain ⟨inner, read⟩ := reads_of_fullPattern plain reads
  cases reads.unique (reads_placed plain read)
  obtain ⟨inner', same, rfl⟩ := reordered_of_placed reordered
  have other : Reordered pattern (String.ofList inner'.text) := ⟨inner, inner', read, same.reads read, same⟩
  exact ⟨_, other, reads_placed (plainFor_of_reordered other plain) (same.reads read)⟩

theorem matchPattern?_isSome_iff (plain : IsPlainFor root pattern) (reordered : Reordered pattern other) :
    (matchPattern? other (some file) root).isSome ↔ (matchPattern? pattern (some file) root).isSome := by
  have empty := eq_empty_of_reordered reordered
  by_cases filled : pattern = ""
  · rw [empty.mpr filled, filled]
  · obtain ⟨run, run', reads, reads', same⟩ := reordered_fullPattern plain reordered
    rw [matchPattern?_filled filled, matchPattern?_filled (mt empty.mp filled)]
    exact same.match?_isSome_iff reads reads'

/-- What is found in some order is what may be matched. -/
theorem exists_order_iff (plain : IsPlainFor root pattern) (found : (matchPattern? pattern (some file) root).isSome) :
    (∃ other, Reordered pattern other ∧ matchPattern? other (some file) root = some d) ↔
      MayMatch (fullPattern pattern root) file d := by
  have filled := filled_of_matchPattern? found
  constructor
  · rintro ⟨other, reordered, matched⟩
    obtain ⟨run, run', reads, reads', same⟩ := reordered_fullPattern plain reordered
    rw [matchPattern?_filled (mt (eq_empty_of_reordered reordered).mp filled)] at matched
    exact same.mayMatch reads reads' matched
  · rintro ⟨run, rest, reads, leaves, split⟩
    rw [matchPattern?_filled filled] at found
    have accepted := reads.accepted_of_match? found
    obtain ⟨run', same, remains⟩ := leaves.realized (Run.compiles_of_regex? accepted)
    obtain ⟨other, reordered, reads'⟩ := exists_reordered_of_fullPattern plain reads same
    refine ⟨other, reordered, ?_⟩
    rw [matchPattern?_filled (mt (eq_empty_of_reordered reordered).mp filled),
      reads'.match?_eq_some_iff (same.regex?_isSome_iff.mpr accepted)]
    exact ⟨rest, remains, split⟩

theorem isOrderFree_iff (plain : IsPlainFor root pattern) :
    IsOrderFree pattern root file ↔ ((matchPattern? pattern (some file) root).isSome →
      ∀ d, MayMatch (fullPattern pattern root) file d → IsLongest (fullPattern pattern root) file d) := by
  constructor
  · intro free found d may
    obtain ⟨other, reordered, matched⟩ := (exists_order_iff plain found).mpr may
    exact (free other reordered).2 d matched
  · intro longest other reordered
    have same : (matchPattern? other (some file) root).isSome ↔ (matchPattern? pattern (some file) root).isSome :=
      matchPattern?_isSome_iff plain reordered
    cases matched' : matchPattern? other (some file) root with
    | none =>
      rw [matched'] at same
      have unmatched : matchPattern? pattern (some file) root = none := by simpa using same
      exact ⟨unmatched.symm, by simp⟩
    | some d =>
      have found : (matchPattern? pattern (some file) root).isSome := same.mp (by rw [matched']; rfl)
      obtain ⟨d', matched⟩ := Option.isSome_iff_exists.mp found
      have first := longest found d' ((exists_order_iff plain found).mp ⟨pattern, reordered.self, matched⟩)
      have second := longest found d ((exists_order_iff plain found).mp ⟨other, reordered, matched'⟩)
      rw [matched, first.unique second]
      refine ⟨rfl, fun e same => ?_⟩
      rw [← Option.some.inj same]
      exact second

/-- Without choices between texts of several lengths, all that may be matched is the longest start. -/
theorem isLongest_of_uniform (plain : IsPlainFor root pattern) (uniform : IsUniform pattern)
    (may : MayMatch (fullPattern pattern root) file d) : IsLongest (fullPattern pattern root) file d := by
  obtain ⟨inner, read, even⟩ := uniform
  obtain ⟨run, rest, reads, leaves, split⟩ := may
  cases reads.unique (reads_placed plain read)
  have even : (placed root inner).Uniform := uniform_placed even
  obtain ⟨w, word, whole⟩ := leaves.word
  have same : w = d.toList := List.append_cancel_right (whole.symm.trans split)
  refine ⟨⟨_, reads, same ▸ word⟩, ⟨rest, split.symm⟩, ?_⟩
  rintro u ⟨run', reads', inside⟩ ⟨rest', start⟩
  cases reads'.unique reads
  have shorter := even.longest leaves inside start.symm
  have sizes := congrArg List.length (start.trans split)
  rw [List.length_append, List.length_append] at sizes
  omega

/-- Patterns are found in every order or in none, and what is found in some order is what may be matched: with the
longest words for the wildcards, and any alternatives. So the order does not matter, and the longest start is found,
just if all that may be matched is that start, and always if the alternatives of each group are equally long. -/
theorem matchPattern?_reordered (plain : IsPlainFor root pattern) (file : String) :
    (∀ other, Reordered pattern other →
      ((matchPattern? other (some file) root).isSome ↔ (matchPattern? pattern (some file) root).isSome)) ∧
    ((matchPattern? pattern (some file) root).isSome → ∀ d,
      (∃ other, Reordered pattern other ∧ matchPattern? other (some file) root = some d) ↔
        MayMatch (fullPattern pattern root) file d) ∧
    (IsOrderFree pattern root file ↔ ((matchPattern? pattern (some file) root).isSome →
      ∀ d, MayMatch (fullPattern pattern root) file d → IsLongest (fullPattern pattern root) file d)) ∧
    (IsUniform pattern → IsOrderFree pattern root file) :=
  ⟨fun _ reordered => matchPattern?_isSome_iff plain reordered, fun found _ => exists_order_iff plain found,
    isOrderFree_iff plain,
    fun uniform => (isOrderFree_iff plain).mpr fun _ _ may => isLongest_of_uniform plain uniform may⟩

/-- The shorter of two nested directories is found if it stands first, and then the order matters. Directories with
names of one length may stand in any order. -/
theorem matchPattern?_reordered_nested :
    matchPattern? "\x7ba,a/b\x7d" (some "/ws/a/b/c.js") (some (.ofString "/ws")) = some "/ws/a/" ∧
      matchPattern? "\x7ba/b,a\x7d" (some "/ws/a/b/c.js") (some (.ofString "/ws")) = some "/ws/a/b/" ∧
      ¬ IsOrderFree "\x7ba,a/b\x7d" (some (.ofString "/ws")) "/ws/a/b/c.js" ∧
      IsOrderFree "\x7bb,a\x7d/*" (some (.ofString "/ws")) "/ws/a/b/c.js" := by
  have plain (pattern : String) : IsPlainFor (some (.ofString "/ws")) pattern := by
    intro folder inside _
    have text : (FilePath.ofString "/ws").text = "/ws" := by decide +kernel
    cases Option.mem_some_iff.mp inside
    simp [text, Glob.IsLiteral]
  have shorter : matchPattern? "\x7ba,a/b\x7d" (some "/ws/a/b/c.js") (some (.ofString "/ws")) = some "/ws/a/" := by
    decide +kernel
  have longer : matchPattern? "\x7ba/b,a\x7d" (some "/ws/a/b/c.js") (some (.ofString "/ws")) = some "/ws/a/b/" := by
    decide +kernel
  refine ⟨shorter, longer, fun free => ?_, ?_⟩
  · let a := Run.piece (.char 'a') .nil
    let inner := Run.piece (.char 'a') (.piece (.char '/') (.piece (.char 'b') .nil))
    have reordered : Reordered "\x7ba,a/b\x7d" "\x7ba/b,a\x7d" :=
      ⟨.group (.more a (.last inner)) .nil, .group (.more inner (.last a)) .nil,
        ⟨by simp [a, inner, Run.Fits, Glob.Choice.Fits, Glob.Piece.Fits], rfl⟩,
        ⟨by simp [a, inner, Run.Fits, Glob.Choice.Fits, Glob.Piece.Fits], rfl⟩,
        .group (List.forall₂_same.mpr fun run _ => Run.Reordered.refl run) (List.Perm.swap _ _ _) .nil⟩
    have same := (free _ reordered).1
    rw [shorter, longer] at same
    exact absurd same (by decide)
  · apply (matchPattern?_reordered (plain _) _).2.2.2
    refine ⟨.group (.more (.piece (.char 'b') .nil) (.last (.piece (.char 'a') .nil)))
      (.piece (.char '/') (.piece .star .nil)), ⟨?_, rfl⟩, ?_, trivial⟩
    · simp [Run.Fits, Glob.Choice.Fits, Glob.Piece.Fits, Run.text]
    · have single (c : Char) : ∀ w ∈ (Run.piece (.char c) .nil).words, w.length = 1 := by
        rintro _ ⟨_, rfl, _, rfl, rfl⟩
        rfl
      rintro u (first | first) v (second | second)
      all_goals rw [single _ u first, single _ v second]

end LinterClient.WorkingDirectory
