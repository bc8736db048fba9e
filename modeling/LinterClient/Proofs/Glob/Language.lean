import Mathlib.Data.Char
import LinterClient.Proofs.Glob.Compilation
import LinterClient.Proofs.Regex.Language

/-!
The language of a glob.

What a row denotes is told piece by piece and group by group, without any regular expression. On texts of
one line the expression of a glob matches iff a start of the text belongs to the glob's language.
-/

namespace LinterClient.Glob

open Computability
/-- What stands between two slashes. -/
def segment : Language Char :=
  {w | '/' ∉ w}

/-- One character of some kind. -/
def oneOf (accepts : Char → Prop) : Language Char :=
  {w | ∃ c, accepts c ∧ w = [c]}

def Piece.language : Piece → Language Char
  | .segments => (segment * {['/']})∗
  | .anything => {_w | True}
  | .star => segment
  | .single => oneOf (· ≠ '/')
  | .charClass negated body => {w | ∃ r, class? negated body = some r ∧ w ∈ r.language}
  | .char c => {[c]}

mutual

def Run.language : Run → Language Char
  | .nil => 1
  | .piece first rest => first.language * rest.language
  | .group alternatives rest => alternatives.language * rest.language

def Choice.language : Choice → Language Char
  | .last run => run.language
  | .more first rest => first.language + rest.language

end

/-- The texts that a glob denotes: those of the row that it is read as. -/
def language (glob : String) : Language Char :=
  {w | ∃ run, Reads glob run ∧ w ∈ run.language}

/-- Two languages have the same words on one line. -/
def Agree (L M : Language Char) : Prop :=
  ∀ w, '\n' ∉ w → (w ∈ L ↔ w ∈ M)

section Agree

variable {L L' M M' : Language Char}

theorem Agree.mul (first : Agree L L') (second : Agree M M') : Agree (L * M) (L' * M') := by
  intro w line
  rw [Language.mem_mul, Language.mem_mul]
  constructor
  · rintro ⟨u, inside, v, behind, rfl⟩
    rw [List.mem_append, not_or] at line
    exact ⟨u, (first u line.1).mp inside, v, (second v line.2).mp behind, rfl⟩
  · rintro ⟨u, inside, v, behind, rfl⟩
    rw [List.mem_append, not_or] at line
    exact ⟨u, (first u line.1).mpr inside, v, (second v line.2).mpr behind, rfl⟩

theorem Agree.add (first : Agree L L') (second : Agree M M') : Agree (L + M) (L' + M') := by
  intro w line
  rw [Language.mem_add, Language.mem_add, first w line, second w line]

theorem Agree.of_eq (same : L = L') : Agree L L' :=
  fun _ _ => by rw [same]

end Agree

theorem kstar_oneOf (accepts : Char → Prop) : (oneOf accepts)∗ = {w | ∀ c ∈ w, accepts c} := by
  ext w
  constructor
  · rintro ⟨words, rfl, inside⟩ c member
    obtain ⟨word, among, member⟩ := List.mem_flatten.mp member
    obtain ⟨d, accepted, rfl⟩ := inside word among
    rw [List.mem_singleton.mp member]
    exact accepted
  · intro all
    refine ⟨w.map fun c => [c], (List.flatMap_singleton' w).symm, fun word among => ?_⟩
    obtain ⟨c, member, rfl⟩ := List.mem_map.mp among
    exact ⟨c, all c member, rfl⟩

theorem language_sequence (r : Regex) (rs : List Regex) :
    (Regex.sequence (r :: rs)).language = r.language * (Regex.sequence rs).language := by
  cases rs with
  | nil => simp [Regex.sequence, Regex.language]
  | cons => rfl

theorem language_notSlash : notSlash.language = oneOf (· ≠ '/') := by
  ext w
  apply exists_congr
  intro c
  apply and_congr_left
  intro _
  simp [Regex.CharSet.contains]

theorem language_star_notSlash : (Regex.star notSlash).language = segment := by
  rw [Regex.language, language_notSlash, kstar_oneOf]
  ext w
  simp only [segment]
  constructor
  · exact fun all member => all '/' member rfl
  · rintro outside c member rfl
    exact outside member

theorem Piece.agree (p : Piece) {r : Regex} (found : p.regex? = some r) : Agree r.language p.language := by
  cases p with
  | segments =>
    cases found
    apply Agree.of_eq
    simp only [Regex.language, Piece.language, ← language_star_notSlash]
  | anything =>
    cases found
    intro w line
    have whole : (Regex.star .anyChar).language = {w | ∀ c ∈ w, c ≠ '\n'} := kstar_oneOf (· ≠ '\n')
    rw [whole]
    constructor
    · exact fun _ => trivial
    · rintro - c member rfl
      exact line member
  | star =>
    cases found
    exact Agree.of_eq language_star_notSlash
  | single =>
    cases found
    exact Agree.of_eq language_notSlash
  | charClass negated body =>
    intro w _
    constructor
    · exact fun inside => ⟨r, found, inside⟩
    · rintro ⟨r', found', inside⟩
      cases found.symm.trans found'
      exact inside
  | char c =>
    cases found
    exact Agree.of_eq rfl

mutual

theorem Run.agree (run : Run) {rs : List Regex} (found : run.regexes? = some rs) :
    Agree (Regex.sequence rs).language run.language := by
  cases run with
  | nil =>
    cases found
    exact Agree.of_eq rfl
  | piece first rest =>
    obtain ⟨r, one, others⟩ := Option.bind_eq_some_iff.mp found
    obtain ⟨rs, later, rfl⟩ := Option.map_eq_some_iff.mp others
    rw [language_sequence]
    exact (first.agree one).mul (rest.agree later)
  | group alternatives rest =>
    obtain ⟨r, one, others⟩ := Option.bind_eq_some_iff.mp found
    obtain ⟨rs, later, rfl⟩ := Option.map_eq_some_iff.mp others
    rw [language_sequence]
    exact (alternatives.agree one).mul (rest.agree later)

theorem Choice.agree (choice : Choice) {r : Regex} (found : choice.regex? = some r) :
    Agree r.language choice.language := by
  cases choice with
  | last run =>
    obtain ⟨rs, one, rfl⟩ := Option.map_eq_some_iff.mp found
    exact run.agree one
  | more first rest =>
    obtain ⟨rs, one, others⟩ := Option.bind_eq_some_iff.mp found
    obtain ⟨r, later, rfl⟩ := Option.map_eq_some_iff.mp others
    exact (first.agree one).add (rest.agree later)

end

/-- On one line the expression of a row has the row's language. -/
theorem Run.agree_regex (run : Run) {r : Regex} (found : run.regex? = some r) :
    Agree r.language run.language := by
  obtain ⟨compiled, -⟩ := Option.filter_eq_some_iff.mp found
  obtain ⟨rs, all, rfl⟩ := Option.map_eq_some_iff.mp compiled
  exact run.agree all

/-- A glob without classes is refused if a group is left open. On a text of one line the expression of a
glob that is accepted matches iff a start of the text belongs to the glob's language, and what it matches is
such a start. -/
theorem matches_language {glob : String} :
    ('[' ∉ glob.toList → 0 < openBehind 0 glob.toList → compile? glob = none) ∧
    ∀ text r, compile? glob = some (text, r) → ∀ subject : String, '\n' ∉ subject.toList →
      ((r.find? subject).isSome ↔ ∃ w ∈ language glob, w <+: subject.toList) ∧
      ∀ m, r.find? subject = some m → m.toList ∈ language glob ∧ m.toList <+: subject.toList := by
  refine ⟨fun plain open_ => ?_, fun text r accepted subject line => ?_⟩
  · cases read : tokens 0 glob.toList with
    | none => simp [compile?, source?, read]
    | some ts =>
      have closed : openBehind 0 glob.toList = 0 := (tokens_isSome_iff plain).mp (by simp [read])
      omega
  · have front {w : List Char} (start : w <+: subject.toList) : '\n' ∉ w :=
      fun member => line (start.subset member)
    -- every reading of the glob has the expression that it becomes
    have same {run : Run} (reads : Reads glob run) : run.regex? = some r := by
      have again := reads.compile?_eq
      rw [accepted] at again
      obtain ⟨r', found, pair⟩ := Option.map_eq_some_iff.mp again.symm
      rw [found, (Prod.mk.inj pair).2]
    obtain ⟨run, reads, found⟩ := reads_of_compile? accepted
    refine ⟨?_, fun m matched => ?_⟩
    · rw [Regex.find?_isSome_iff]
      constructor
      · rintro ⟨w, inside, start⟩
        exact ⟨w, ⟨run, reads, (run.agree_regex found w (front start)).mp inside⟩, start⟩
      · rintro ⟨w, ⟨run', reads', inside⟩, start⟩
        exact ⟨w, (run'.agree_regex (same reads') w (front start)).mpr inside, start⟩
    · obtain ⟨inside, start⟩ := Regex.mem_language_of_find? matched
      exact ⟨⟨run, reads, (run.agree_regex found _ (front start)).mp inside⟩, start⟩

theorem matches_language_nested :
    compile? "/\x7ba,\x7bb/" = none ∧ ∃ text r,
      compile? "/\x7ba,b\x7bc,\x7d\x7d/**/x*/" = some (text, r) ∧ (r.find? "/bc/d/xy/z.js").isSome ∧
      ∃ w ∈ language "/\x7ba,b\x7bc,\x7d\x7d/**/x*/", w <+: "/bc/d/xy/z.js".toList := by
  have found : (match? "/\x7ba,b\x7bc,\x7d\x7d/**/x*/" "/bc/d/xy/z.js").isSome := by decide +kernel
  obtain ⟨⟨text, r⟩, accepted⟩ :=
    Option.isSome_iff_exists.mp (by decide +kernel : (compile? "/\x7ba,b\x7bc,\x7d\x7d/**/x*/").isSome)
  rw [match?, accepted] at found
  exact ⟨matches_language.1 (by decide) (by decide), text, r, accepted, found,
    (matches_language.2 text r accepted "/bc/d/xy/z.js" (by decide)).1.mp found⟩

end LinterClient.Glob
