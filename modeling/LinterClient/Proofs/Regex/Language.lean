import Mathlib.Computability.Language
import LinterClient.Regex.Basic

/-!
The texts that a regular expression matches.

In whatever order the choices are tried, what remains of a text is what stands behind a word of the
expression's language. So a match is found iff some start of the text belongs to that language.
-/

namespace LinterClient.Regex

open Computability

/-- The words that an expression matches as a whole. -/
def language : Regex → Language Char
  | .empty => 1
  | .char c => {[c]}
  | .anyChar => {w | ∃ c, c ≠ '\n' ∧ w = [c]}
  | .set negated chars => {w | ∃ c, (chars.contains c != negated) = true ∧ w = [c]}
  | .group body => body.language
  | .seq first rest => first.language * rest.language
  | .alt first rest => first.language + rest.language
  | .star body => body.language∗

theorem mem_char (c : Char) (w : List Char) : w ∈ (char c).language ↔ w = [c] := Iff.rfl

theorem mem_anyChar (w : List Char) : w ∈ anyChar.language ↔ ∃ c, c ≠ '\n' ∧ w = [c] := Iff.rfl

theorem mem_set (negated : Bool) (chars : CharSet) (w : List Char) :
    w ∈ (set negated chars).language ↔ ∃ c, (chars.contains c != negated) = true ∧ w = [c] := Iff.rfl

theorem eq_of_tails {text s t : List Char} (first : s <:+ text) (second : t <:+ text)
    (same : s.length = t.length) : s = t := by
  rcases List.suffix_or_suffix_of_suffix first second with inside | inside
  · exact inside.eq_of_length same
  · exact (inside.eq_of_length same.symm).symm

theorem mem_firstOfEachLength (text : List Char) {l : List (List Char)} (tails : ∀ s ∈ l, s <:+ text)
    (seen : List Nat) (t : List Char) :
    t ∈ firstOfEachLength seen l ↔ t ∈ l ∧ t.length ∉ seen := by
  induction l generalizing seen with
  | nil => simp [firstOfEachLength]
  | cons s l ih =>
    have later : ∀ s ∈ l, s <:+ text := fun s member => tails s (List.mem_cons_of_mem _ member)
    simp only [firstOfEachLength]
    split
    · rename_i known
      have known : s.length ∈ seen := by simpa using known
      rw [ih later, List.mem_cons]
      constructor
      · exact fun ⟨member, new⟩ => ⟨Or.inr member, new⟩
      · rintro ⟨rfl | member, new⟩
        · exact absurd known new
        · exact ⟨member, new⟩
    · rename_i unknown
      have unknown : s.length ∉ seen := by simpa using unknown
      rw [List.mem_cons, List.mem_cons, ih later, List.mem_cons]
      constructor
      · rintro (rfl | ⟨member, new⟩)
        · exact ⟨Or.inl rfl, unknown⟩
        · exact ⟨Or.inr member, fun old => new (Or.inr old)⟩
      · rintro ⟨rfl | member, new⟩
        · exact Or.inl rfl
        · by_cases same : t.length = s.length
          · exact Or.inl (eq_of_tails (later t member) (tails s List.mem_cons_self) same)
          · exact Or.inr ⟨member, fun old => old.elim same new⟩

/-- A word of a star that is not empty starts with a word of its body that is not empty. -/
theorem mem_kstar_iff {L : Language Char} {w : List Char} :
    w ∈ L∗ ↔ w = [] ∨ ∃ u v, u ∈ L ∧ u ≠ [] ∧ v ∈ L∗ ∧ w = u ++ v := by
  constructor
  · intro member
    obtain ⟨words, rfl, inside⟩ := Language.mem_kstar_iff_exists_nonempty.mp member
    cases words with
    | nil => exact Or.inl rfl
    | cons u words =>
      have first := inside u List.mem_cons_self
      have later : words.flatten ∈ L∗ :=
        Language.join_mem_kstar fun v member => (inside v (List.mem_cons_of_mem _ member)).1
      exact Or.inr ⟨u, words.flatten, first.1, first.2, later, by simp⟩
  · rintro (rfl | ⟨u, v, first, -, ⟨words, rfl, inside⟩, rfl⟩)
    · exact Language.nil_mem_kstar L
    · refine ⟨u :: words, by simp, fun y member => ?_⟩
      rcases List.mem_cons.mp member with rfl | member
      · exact first
      · exact inside y member

theorem mem_repeated {text : List Char} {step : List Char → List (List Char)} {L : Language Char}
    (steps : ∀ s, s <:+ text → ∀ t, t ∈ step s ↔ ∃ w ∈ L, s = w ++ t) (fuel : Nat) (s : List Char)
    (tail : s <:+ text) (enough : s.length ≤ fuel) (t : List Char) :
    t ∈ repeated step fuel s ↔ ∃ w ∈ L∗, s = w ++ t := by
  induction fuel generalizing s t with
  | zero =>
    have empty : s = [] := List.length_eq_zero_iff.mp (Nat.le_zero.mp enough)
    subst empty
    simp only [repeated, List.mem_singleton]
    constructor
    · rintro rfl
      exact ⟨[], Language.nil_mem_kstar L, rfl⟩
    · rintro ⟨w, -, whole⟩
      exact (List.append_eq_nil_iff.mp whole.symm).2
  | succ fuel ih =>
    have further : ∀ u ∈ (step s).filter (·.length < s.length),
        ∀ t, t ∈ repeated step fuel u ↔ ∃ w ∈ L∗, u = w ++ t := by
      intro u member
      rw [List.mem_filter] at member
      obtain ⟨w, -, rfl⟩ := (steps s tail u).mp member.1
      have shorter : u.length < (w ++ u).length := by simpa using member.2
      exact ih u ((List.suffix_append w u).trans tail) (by omega)
    have tails : ∀ u ∈ ((step s).filter (·.length < s.length)).flatMap (repeated step fuel) ++ [s],
        u <:+ text := by
      intro u member
      rcases List.mem_append.mp member with member | last
      · obtain ⟨v, inside, found⟩ := List.mem_flatMap.mp member
        obtain ⟨w, -, rfl⟩ := (further v inside u).mp found
        obtain ⟨w', -, rfl⟩ := (steps s tail _).mp (List.mem_filter.mp inside).1
        rw [← List.append_assoc] at tail
        exact (List.suffix_append _ u).trans tail
      · rw [List.mem_singleton.mp last]
        exact tail
    simp only [repeated]
    rw [mem_firstOfEachLength text tails, List.mem_append, List.mem_flatMap, List.mem_singleton]
    constructor
    · rintro ⟨⟨u, inside, found⟩ | rfl, -⟩
      · obtain ⟨v, later, rfl⟩ := (further u inside t).mp found
        rw [List.mem_filter] at inside
        obtain ⟨w, first, rfl⟩ := (steps s tail _).mp inside.1
        have some : w ≠ [] := by
          rintro rfl
          simp at inside
        exact ⟨w ++ v, mem_kstar_iff.mpr (Or.inr ⟨w, v, first, some, later, rfl⟩), by simp⟩
      · exact ⟨[], Language.nil_mem_kstar L, rfl⟩
    · rintro ⟨w, member, rfl⟩
      refine ⟨?_, by simp⟩
      rcases mem_kstar_iff.mp member with rfl | ⟨u, v, first, some, later, rfl⟩
      · exact Or.inr rfl
      · left
        have inside : v ++ t ∈ (step (u ++ v ++ t)).filter (·.length < (u ++ v ++ t).length) := by
          rw [List.mem_filter]
          have long := List.length_pos_iff.mpr some
          refine ⟨(steps _ tail _).mpr ⟨u, first, List.append_assoc u v t⟩, ?_⟩
          simp only [List.length_append, decide_eq_true_eq]
          omega
        exact ⟨v ++ t, inside, (further _ inside t).mpr ⟨v, later, rfl⟩⟩

theorem mem_one {accepts : Char → Bool} {s t : List Char} :
    t ∈ one accepts s ↔ ∃ c, accepts c = true ∧ s = [c] ++ t := by
  cases s with
  | nil => simp [one]
  | cons c s =>
    simp only [one]
    split
    · rename_i accepted
      simp only [List.mem_singleton, List.cons_append, List.nil_append, List.cons.injEq]
      constructor
      · rintro rfl
        exact ⟨c, accepted, rfl, rfl⟩
      · rintro ⟨-, -, -, rfl⟩
        rfl
    · rename_i refused
      simp only [List.not_mem_nil, List.cons_append, List.nil_append, List.cons.injEq, false_iff]
      rintro ⟨d, accepted, rfl, -⟩
      exact refused accepted

theorem mem_flatMap_one {accepts : Char → Bool} {L : Language Char}
    (same : ∀ w, w ∈ L ↔ ∃ c, accepts c = true ∧ w = [c]) (l : List (List Char)) (t : List Char) :
    t ∈ l.flatMap (one accepts) ↔ ∃ s ∈ l, ∃ w ∈ L, s = w ++ t := by
  simp only [List.mem_flatMap, mem_one, same]
  constructor
  · rintro ⟨s, member, c, accepted, rfl⟩
    exact ⟨_, member, [c], ⟨c, accepted, rfl⟩, rfl⟩
  · rintro ⟨s, member, w, ⟨c, accepted, rfl⟩, rfl⟩
    exact ⟨_, member, c, accepted, rfl⟩

theorem tail_of_word {text : List Char} {l : List (List Char)} (tails : ∀ s ∈ l, s <:+ text)
    {L : Language Char} {t : List Char} (found : ∃ s ∈ l, ∃ w ∈ L, s = w ++ t) : t <:+ text := by
  obtain ⟨s, member, w, -, rfl⟩ := found
  exact (List.suffix_append w t).trans (tails _ member)

/-- What remains after a match stands behind a word of the language, and all such remains are found. -/
theorem mem_rests (r : Regex) {text : List Char} {l : List (List Char)} (tails : ∀ s ∈ l, s <:+ text)
    (t : List Char) : t ∈ r.rests l ↔ ∃ s ∈ l, ∃ w ∈ r.language, s = w ++ t := by
  have alone {s : List Char} (tail : s <:+ text) : ∀ u ∈ [s], u <:+ text := by
    intro u only
    rw [List.mem_singleton.mp only]
    exact tail
  induction r generalizing l t with
  | empty => simp [rests, language]
  | char c => exact mem_flatMap_one (fun w => (mem_char c w).trans (by simp)) l t
  | anyChar => exact mem_flatMap_one (fun w => (mem_anyChar w).trans (by simp)) l t
  | set negated chars => exact mem_flatMap_one (mem_set negated chars) l t
  | group body ih => exact ih tails t
  | seq first rest ihFirst ihRest =>
    have inner : ∀ u ∈ first.rests l, u <:+ text :=
      fun u member => tail_of_word tails ((ihFirst tails u).mp member)
    apply (ihRest inner t).trans
    constructor
    · rintro ⟨u, member, w, second, rfl⟩
      obtain ⟨s, member, v, front, rfl⟩ := (ihFirst tails _).mp member
      exact ⟨_, member, v ++ w, Language.append_mem_mul front second, by simp⟩
    · rintro ⟨s, member, w, both, rfl⟩
      obtain ⟨v, front, w, second, rfl⟩ := Language.mem_mul.mp both
      rw [List.append_assoc] at member
      exact ⟨w ++ t, (ihFirst tails _).mpr ⟨_, member, v, front, rfl⟩, w, second, rfl⟩
  | alt first rest ihFirst ihRest =>
    have each : ∀ s ∈ l, ∀ u, u ∈ first.rests [s] ++ rest.rests [s] ↔
        ∃ w ∈ first.language + rest.language, s = w ++ u := by
      intro s member u
      have tail := alone (tails s member)
      apply List.mem_append.trans
      apply (or_congr (ihFirst tail u) (ihRest tail u)).trans
      simp only [List.mem_singleton, exists_eq_left, Language.mem_add, or_and_right, exists_or]
    rw [rests, mem_firstOfEachLength text]
    · simp only [List.mem_flatMap, List.not_mem_nil, not_false_eq_true, and_true]
      exact exists_congr fun s => and_congr_right fun member => each s member t
    · intro u member
      obtain ⟨s, inside, found⟩ := List.mem_flatMap.mp member
      exact tail_of_word tails ⟨s, inside, (each s inside u).mp found⟩
  | star body ih =>
    have steps : ∀ s, s <:+ text → ∀ u, u ∈ body.rests [s] ↔ ∃ w ∈ body.language, s = w ++ u := by
      intro s tail u
      apply (ih (alone tail) u).trans
      simp only [List.mem_singleton, exists_eq_left]
    have each : ∀ s ∈ l, ∀ u, u ∈ repeated (fun v => body.rests [v]) s.length s ↔
        ∃ w ∈ body.language∗, s = w ++ u :=
      fun s member => mem_repeated steps s.length s (tails s member) (Nat.le_refl _)
    rw [rests, mem_firstOfEachLength text]
    · simp only [List.mem_flatMap, List.not_mem_nil, not_false_eq_true, and_true]
      exact exists_congr fun s => and_congr_right fun member => each s member t
    · intro u member
      obtain ⟨s, inside, found⟩ := List.mem_flatMap.mp member
      exact tail_of_word tails ⟨s, inside, (each s inside u).mp found⟩

theorem mem_rests_single (r : Regex) (s t : List Char) : t ∈ r.rests [s] ↔ ∃ w ∈ r.language, s = w ++ t := by
  have tails : ∀ u ∈ [s], u <:+ s := by simp
  apply (mem_rests r tails t).trans
  simp only [List.mem_singleton, exists_eq_left]

/-- The preferred match is the text before the first of the remains. -/
theorem find?_eq_some_iff {r : Regex} {s m : String} :
    r.find? s = some m ↔ ∃ rest, (r.rests [s.toList]).head? = some rest ∧ s.toList = m.toList ++ rest := by
  simp only [find?]
  cases found : r.rests [s.toList] with
  | nil => simp
  | cons rest more =>
    obtain ⟨w, -, whole⟩ := (mem_rests_single r s.toList rest).mp (by rw [found]; exact List.mem_cons_self)
    simp only [List.head?_cons, Option.some.injEq, exists_eq_left', whole,
      List.append_cancel_right_eq]
    constructor
    · rintro rfl
      simp
    · rintro rfl
      simp

theorem mem_language_of_find? {r : Regex} {s m : String} (found : r.find? s = some m) :
    m.toList ∈ r.language ∧ m.toList <+: s.toList := by
  obtain ⟨rest, first, whole⟩ := find?_eq_some_iff.mp found
  obtain ⟨w, inside, split⟩ := (mem_rests_single r s.toList rest).mp (List.mem_of_mem_head? first)
  have same : w = m.toList := List.append_cancel_right (split.symm.trans whole)
  rw [← same]
  exact ⟨inside, by simp [split]⟩

/-- An expression matches at the start of a text iff a start of the text is a word of its language. -/
theorem find?_isSome_iff {r : Regex} {s : String} :
    (r.find? s).isSome ↔ ∃ w ∈ r.language, w <+: s.toList := by
  constructor
  · intro some
    obtain ⟨m, found⟩ := Option.isSome_iff_exists.mp some
    exact ⟨m.toList, mem_language_of_find? found⟩
  · rintro ⟨w, inside, rest, whole⟩
    have member : rest ∈ r.rests [s.toList] :=
      (mem_rests_single r s.toList rest).mpr ⟨w, inside, whole.symm⟩
    simp only [find?]
    cases found : r.rests [s.toList] with
    | nil => simp [found] at member
    | cons => rfl

end LinterClient.Regex
