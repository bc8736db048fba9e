import LinterClient.Proofs.Glob.Preference

/-!
Globs that prefer their longest match.

A piece matches texts of one length, or every end of what it matches. So a match of pieces that starts later ends
no earlier, or could end where the earlier one does, and it never pays to give up a character. The same holds
of a group if its alternatives match texts of one length.
-/

namespace LinterClient.Glob

open Computability

/-- Whether a match that starts later ends no earlier than another one, or could end where that one does. -/
def Steady (L : Language Char) : Prop :=
  ∀ u ∈ L, ∀ u' ∈ L, ∀ x v v', x ++ (u' ++ v') = u ++ v → v'.length ≤ v.length ∨ ∃ w ∈ L, w ++ v = u' ++ v'

theorem Steady.of_length {L : Language Char} (even : ∀ u ∈ L, ∀ v ∈ L, u.length = v.length) : Steady L := by
  intro u inside u' inside' x v v' same
  have sizes := congrArg List.length same
  simp only [List.length_append] at sizes
  have equal := even u inside u' inside'
  left
  omega

theorem Steady.of_suffix {L : Language Char} (closed : ∀ u ∈ L, ∀ w, w <:+ u → w ∈ L) : Steady L := by
  intro u inside u' _ x v v' same
  by_cases reaches : v.length ≤ (u' ++ v').length
  · right
    have whole : v <:+ x ++ (u' ++ v') := ⟨u, same.symm⟩
    obtain ⟨w, split⟩ := List.suffix_of_suffix_length_le whole (List.suffix_append x _) reaches
    rw [← split, ← List.append_assoc] at same
    exact ⟨w, closed u inside w ⟨x, List.append_cancel_right same⟩, split⟩
  · left
    rw [List.length_append] at reaches
    omega

theorem Steady.mul {L M : Language Char} (first : Steady L) (second : Steady M) : Steady (L * M) := by
  rintro _ ⟨u, inL, w, inM, rfl⟩ _ ⟨u', inL', w', inM', rfl⟩ x v v' same
  simp only [List.append_assoc] at same ⊢
  rcases first u inL u' inL' x (w ++ v) (w' ++ v') same with shorter | ⟨z, inside, meets⟩
  · have tail : w' ++ v' <:+ u ++ (w ++ v) := by
      rw [← same, ← List.append_assoc]
      exact List.suffix_append _ _
    obtain ⟨y, split⟩ := List.suffix_of_suffix_length_le tail (List.suffix_append u _) shorter
    rcases second w inM w' inM' y v v' split with less | ⟨z, inside, meets⟩
    · exact Or.inl less
    · exact Or.inr ⟨u' ++ z, Language.append_mem_mul inL' inside, by rw [List.append_assoc, meets]⟩
  · exact Or.inr ⟨z ++ w, Language.append_mem_mul inside inM, by rw [List.append_assoc, meets]⟩

/-- Segments with their slashes are the texts that end with a slash, and the empty one. -/
theorem mem_segments_iff {w : List Char} : w ∈ Piece.segments.language ↔ w = [] ∨ w.getLast? = some '/' := by
  constructor
  · rintro ⟨words, rfl, inside⟩
    rcases List.eq_nil_or_concat words with rfl | ⟨front, last, rfl⟩
    · exact Or.inl rfl
    · obtain ⟨u, -, _, rfl, rfl⟩ := inside last (by simp)
      right
      simp
  · intro ends
    induction h : w.length using Nat.strongRecOn generalizing w with
    | ind size ih =>
    subst h
    rcases ends with rfl | ends
    · exact Language.nil_mem_kstar _
    · obtain ⟨u, v, rfl, clean⟩ := List.eq_append_cons_of_mem (List.mem_of_getLast? ends)
      have later : v ∈ Piece.segments.language := by
        apply ih v.length _ _ rfl
        · rw [List.length_append, List.length_cons]
          omega
        · by_cases none : v = []
          · exact Or.inl none
          · right
            rwa [List.getLast?_append_of_ne_nil _ (by simp), List.getLast?_cons_of_ne_nil none] at ends
      apply Regex.mem_kstar_iff.mpr
      exact Or.inr ⟨u ++ ['/'], v, Language.append_mem_mul clean rfl, by simp, later, by simp⟩

theorem Piece.steady (p : Piece) : Steady p.words := by
  cases p with
  | segments =>
    apply Steady.of_suffix
    intro u inside w tail
    apply mem_segments_iff.mpr
    rcases mem_segments_iff.mp inside with rfl | ends
    · exact Or.inl (List.suffix_nil.mp tail)
    · by_cases none : w = []
      · exact Or.inl none
      · obtain ⟨x, rfl⟩ := tail
        rw [List.getLast?_append_of_ne_nil _ none] at ends
        exact Or.inr ends
  | anything => exact Steady.of_suffix fun u line w tail member => line (tail.subset member)
  | star => exact Steady.of_suffix fun u clean w tail member => clean (tail.subset member)
  | single =>
    apply Steady.of_length
    rintro _ ⟨c, -, rfl⟩ _ ⟨d, -, rfl⟩
    rfl
  | charClass negated body =>
    apply Steady.of_length
    rintro u ⟨r, found, inside⟩ v ⟨r', found', inside'⟩
    rw [Regex.length_of_takesOne (class?_takesOne found) inside,
      Regex.length_of_takesOne (class?_takesOne found') inside']
  | char c =>
    apply Steady.of_length
    rintro _ rfl _ rfl
    rfl

mutual

/-- Whether all choices of a row are between texts of one length. -/
def Run.Uniform : Run → Prop
  | .nil => True
  | .piece _ rest => rest.Uniform
  | .group choice rest => choice.Uniform ∧ rest.Uniform

def Choice.Uniform : Choice → Prop
  | .last run => run.Uniform
  | .more first rest => ∀ u ∈ (first.words + rest.words), ∀ v ∈ (first.words + rest.words), u.length = v.length

end

theorem Run.Uniform.append {front rest : Run} (uniform : front.Uniform) (behind : rest.Uniform) :
    (front.append rest).Uniform := by
  cases front with
  | nil => exact behind
  | piece p front =>
    have later : front.Uniform := uniform
    exact later.append behind
  | group choice front => exact ⟨uniform.1, Run.Uniform.append uniform.2 behind⟩

theorem Run.Uniform.steady {run : Run} (uniform : run.Uniform) : Steady run.words := by
  induction run using Run.byParts with
  | nil =>
    apply Steady.of_length
    rintro _ rfl _ rfl
    rfl
  | piece p rest ih => exact p.steady.mul (ih uniform)
  | group choice rest each _ ih =>
    apply Steady.mul _ (ih uniform.2)
    cases choice with
    | last a => exact each a (List.mem_singleton_self a) uniform.1
    | more first others => exact Steady.of_length uniform.1

/-- Without choices between texts of several lengths, the longest match is preferred. -/
theorem Run.Uniform.longest {run : Run} (uniform : run.Uniform) {s t : List Char} (leaves : run.MayLeave s t)
    {w t' : List Char} (inside : w ∈ run.words) (split : s = w ++ t') : t.length ≤ t'.length := by
  induction run using Run.byParts generalizing s w with
  | nil =>
    cases leaves
    rw [split, (inside : w = [])]
    exact Nat.le_refl _
  | piece p rest ih =>
    have behind : rest.Uniform := uniform
    cases leaves with
    | @piece _ _ u v _ own longest later =>
      obtain ⟨u₁, first, w₁, second, rfl⟩ := inside
      rw [List.append_assoc] at split
      have less := longest u₁ (w₁ ++ t') split first ⟨w₁, second, List.prefix_append w₁ t'⟩
      have sizes := congrArg List.length split
      simp only [List.length_append] at sizes
      -- what follows starts later than in the other match, or at the same place
      have tail : v <:+ u₁ ++ (w₁ ++ t') := ⟨u, split⟩
      obtain ⟨x, same⟩ := List.suffix_of_suffix_length_le tail (List.suffix_append u₁ _)
        (by rw [List.length_append]; omega)
      obtain ⟨w₂, word, rfl⟩ := later.word
      rcases behind.steady w₁ second w₂ word x t' t same with shorter | ⟨z, inside, meets⟩
      · exact shorter
      · exact ih behind later inside meets.symm
  | group choice rest _ each ih =>
    cases leaves with
    | @group _ a _ _ _ among later =>
      cases choice with
      | last b =>
        cases List.mem_singleton.mp among
        apply each a among (uniform.1.append uniform.2) later _ split
        rw [Run.words_append]
        exact inside
      | more first others =>
        obtain ⟨u, own, v, same, behind⟩ := later.split
        obtain ⟨u₁, first, w₁, second, rfl⟩ := inside
        have even := uniform.1 u (Choice.mem_words.mpr ⟨a, among, own⟩) u₁ first
        rw [same, List.append_assoc] at split
        exact ih uniform.2 behind second (List.append_inj_right split even)

end LinterClient.Glob
