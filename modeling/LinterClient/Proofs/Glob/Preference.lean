import LinterClient.Proofs.Glob.Ends
import LinterClient.Proofs.Regex.Preference

/-!
Which of several matches a glob prefers.

From left to right, each piece takes as much as it can so that what follows still matches, and each group takes
the first of its alternatives with which what follows still matches. A longer match may be lost that way: the
second alternative is not tried when the first one leads on.
-/

namespace LinterClient.Glob

open Computability

/-! ## Words on several lines -/

/-- The texts that a piece matches, also those of several lines. -/
def Piece.words : Piece → Language Char
  | .anything => {w | '\n' ∉ w}
  | p => p.language

mutual

def Run.words : Run → Language Char
  | .nil => 1
  | .piece first rest => first.words * rest.words
  | .group alternatives rest => alternatives.words * rest.words

def Choice.words : Choice → Language Char
  | .last run => run.words
  | .more first rest => first.words + rest.words

end

theorem Piece.language_eq {p : Piece} {r : Regex} (found : p.regex? = some r) : r.language = p.words := by
  cases p with
  | segments =>
    cases found
    have whole : (Regex.star (.group (.seq (.star notSlash) (.char '/')))).language = Piece.segments.language := by
      simp only [Regex.language, Piece.language, ← language_star_notSlash]
    exact whole
  | anything =>
    cases found
    have whole : (Regex.star .anyChar).language = {w | ∀ c ∈ w, c ≠ '\n'} := kstar_oneOf (· ≠ '\n')
    rw [whole]
    ext w
    change (∀ c ∈ w, c ≠ '\n') ↔ '\n' ∉ w
    constructor
    · exact fun all member => all '\n' member rfl
    · rintro line c member rfl
      exact line member
  | star =>
    cases found
    exact language_star_notSlash
  | single =>
    cases found
    exact language_notSlash
  | charClass negated body =>
    ext w
    constructor
    · exact fun inside => ⟨r, found, inside⟩
    · rintro ⟨r', found', inside⟩
      cases found.symm.trans found'
      exact inside
  | char c =>
    cases found
    rfl

mutual

theorem Run.language_eq (run : Run) {rs : List Regex} (found : run.regexes? = some rs) :
    (Regex.sequence rs).language = run.words := by
  cases run with
  | nil =>
    cases found
    rfl
  | piece first rest =>
    obtain ⟨r, one, others⟩ := Option.bind_eq_some_iff.mp found
    obtain ⟨rs, later, rfl⟩ := Option.map_eq_some_iff.mp others
    rw [language_sequence, Piece.language_eq one, rest.language_eq later, Run.words]
  | group alternatives rest =>
    obtain ⟨r, one, others⟩ := Option.bind_eq_some_iff.mp found
    obtain ⟨rs, later, rfl⟩ := Option.map_eq_some_iff.mp others
    rw [language_sequence, Regex.language, alternatives.language_eq one, rest.language_eq later, Run.words]

theorem Choice.language_eq (choice : Choice) {r : Regex} (found : choice.regex? = some r) :
    r.language = choice.words := by
  cases choice with
  | last run =>
    obtain ⟨rs, one, rfl⟩ := Option.map_eq_some_iff.mp found
    exact run.language_eq one
  | more first rest =>
    obtain ⟨rs, one, others⟩ := Option.bind_eq_some_iff.mp found
    obtain ⟨r, later, rfl⟩ := Option.map_eq_some_iff.mp others
    rw [Regex.language, first.language_eq one, rest.language_eq later, Choice.words]

end

/-! ## Alternatives -/

def Choice.alternatives : Choice → List Run
  | .last run => [run]
  | .more first rest => first :: rest.alternatives

mutual

/-- How many pieces and groups a row has. -/
def Run.size : Run → Nat
  | .nil => 0
  | .piece _ rest => rest.size + 1
  | .group alternatives rest => alternatives.size + rest.size + 1

def Choice.size : Choice → Nat
  | .last run => run.size
  | .more first rest => first.size + rest.size

end

theorem Run.size_append (front back : Run) : (front.append back).size = front.size + back.size := by
  cases front with
  | nil => simp [Run.append, Run.size]
  | piece p rest =>
    rw [Run.append, Run.size, Run.size, rest.size_append back]
    omega
  | group choice rest =>
    rw [Run.append, Run.size, Run.size, rest.size_append back]
    omega

theorem Choice.size_le {choice : Choice} {a : Run} (among : a ∈ choice.alternatives) : a.size ≤ choice.size := by
  cases choice with
  | last run => rw [List.mem_singleton.mp among, Choice.size]
  | more first rest =>
    rw [Choice.size]
    rcases List.mem_cons.mp among with same | among
    · rw [same]
      omega
    · have less := Choice.size_le among
      omega

/-- What holds of a row may be shown from what holds of its parts, and of the rows that have one alternative in
place of their first group. -/
@[elab_as_elim]
theorem Run.byParts {motive : Run → Prop} (nil : motive .nil)
    (piece : ∀ p rest, motive rest → motive (.piece p rest))
    (group : ∀ (choice : Choice) (rest : Run), (∀ a ∈ choice.alternatives, motive a) →
      (∀ a ∈ choice.alternatives, motive (a.append rest)) → motive rest → motive (.group choice rest))
    (run : Run) : motive run := by
  induction h : run.size using Nat.strongRecOn generalizing run with
  | ind size ih =>
  subst h
  cases run with
  | nil => exact nil
  | piece p rest => exact piece p rest (ih rest.size (Nat.lt_succ_self _) rest rfl)
  | group choice rest =>
    have smaller (run : Run) (less : run.size ≤ choice.size + rest.size) : motive run :=
      ih run.size (Nat.lt_succ_of_le less) run rfl
    apply group choice rest
    · intro a among
      have less := Choice.size_le among
      exact smaller a (by omega)
    · intro a among
      have less := Choice.size_le among
      exact smaller (a.append rest) (by rw [Run.size_append]; omega)
    · exact smaller rest (by omega)

theorem Run.append_nil (run : Run) : run.append .nil = run := by
  cases run with
  | nil => rfl
  | piece p rest => rw [Run.append, rest.append_nil]
  | group choice rest => rw [Run.append, rest.append_nil]

theorem Run.append_assoc (a b c : Run) : (a.append b).append c = a.append (b.append c) := by
  cases a with
  | nil => rfl
  | piece p rest => rw [Run.append, Run.append, Run.append, rest.append_assoc]
  | group choice rest => rw [Run.append, Run.append, Run.append, rest.append_assoc]

theorem Run.words_append (front back : Run) : (front.append back).words = front.words * back.words := by
  cases front with
  | nil => rw [Run.append, Run.words, one_mul]
  | piece p rest => rw [Run.append, Run.words, Run.words, rest.words_append, mul_assoc]
  | group choice rest => rw [Run.append, Run.words, Run.words, rest.words_append, mul_assoc]

theorem Choice.mem_words {choice : Choice} {w : List Char} :
    w ∈ choice.words ↔ ∃ a ∈ choice.alternatives, w ∈ a.words := by
  cases choice with
  | last run => simp [Choice.words, Choice.alternatives]
  | more first rest =>
    have later : w ∈ rest.words ↔ ∃ a ∈ rest.alternatives, w ∈ a.words := Choice.mem_words
    rw [Choice.words, Language.mem_add, later, Choice.alternatives, List.exists_mem_cons_iff]

theorem Run.mem_words_group {choice : Choice} {rest : Run} {w : List Char} :
    w ∈ (Run.group choice rest).words ↔ ∃ a ∈ choice.alternatives, w ∈ (a.append rest).words := by
  simp only [Run.words, Run.words_append, Language.mem_mul, Choice.mem_words]
  constructor
  · rintro ⟨u, ⟨a, among, inside⟩, v, behind, rfl⟩
    exact ⟨a, among, u, inside, v, behind, rfl⟩
  · rintro ⟨a, among, u, inside, v, behind, rfl⟩
    exact ⟨u, ⟨a, among, inside⟩, v, behind, rfl⟩

/-! ## Rows that have an expression -/

/-- Whether each class of a row has an expression. -/
def Run.Compiles (run : Run) : Prop :=
  run.regexes?.isSome = true

theorem Run.compiles_piece {p : Piece} {rest : Run} :
    (Run.piece p rest).Compiles ↔ p.regex?.isSome = true ∧ rest.Compiles := by
  rw [Run.Compiles, Run.Compiles, Run.regexes?]
  cases p.regex? <;> simp

theorem Run.compiles_group {choice : Choice} {rest : Run} :
    (Run.group choice rest).Compiles ↔ choice.regex?.isSome = true ∧ rest.Compiles := by
  rw [Run.Compiles, Run.Compiles, Run.regexes?]
  cases choice.regex? <;> simp

theorem Run.compiles_append {front back : Run} :
    (front.append back).Compiles ↔ front.Compiles ∧ back.Compiles := by
  rw [Run.Compiles, Run.Compiles, Run.Compiles, Run.regexes?_append]
  cases front.regexes? <;> simp

theorem Choice.compiles_iff (choice : Choice) :
    choice.regex?.isSome = true ↔ ∀ a ∈ choice.alternatives, a.Compiles := by
  cases choice with
  | last run => simp [Choice.regex?, Choice.alternatives, Run.Compiles]
  | more first rest =>
    have later := rest.compiles_iff
    rw [Choice.alternatives, List.forall_mem_cons, ← later, Choice.regex?, Run.Compiles]
    cases first.regexes? <;> simp

/-! ## Longer matches first -/

theorem growing_star_notSlash (s : List Char) : Regex.Growing ((Regex.star notSlash).rests [s]) :=
  Regex.growing_star (Regex.length_rests_of_takesOne rfl) s

theorem length_oneSegment_le (s : List Char) : (oneSegment.rests [s]).length ≤ 1 := by
  have growing : Regex.Growing (oneSegment.rests [s]) := (growing_star_notSlash s).one _
  apply growing.length_le
  intro t first u second
  obtain ⟨v, clean, rfl⟩ := mem_rests_oneSegment.mp first
  obtain ⟨v', clean', split⟩ := mem_rests_oneSegment.mp second
  have behind := (splitAt_first clean t).2
  rw [split, (splitAt_first clean' u).2] at behind
  exact (List.cons.inj behind).2.symm

theorem class?_takesOne {negated : Bool} {body : List Char} {r : Regex} (found : class? negated body = some r) :
    r.takesOne = true := by
  obtain ⟨⟨r', rest⟩, read, rfl⟩ := Option.map_eq_some_iff.mp found
  obtain ⟨x, -, same⟩ := Option.map_eq_some_iff.mp read
  cases same
  rfl

/-- A piece tries longer matches first. -/
theorem Piece.growing {p : Piece} {r : Regex} (found : p.regex? = some r) (s : List Char) :
    Regex.Growing (r.rests [s]) := by
  cases p with
  | segments =>
    cases found
    exact Regex.growing_star length_oneSegment_le s
  | anything =>
    cases found
    exact Regex.growing_star (Regex.length_rests_of_takesOne rfl) s
  | star =>
    cases found
    exact growing_star_notSlash s
  | single =>
    cases found
    exact Regex.growing_of_length (Regex.length_rests_of_takesOne rfl s)
  | charClass negated body =>
    exact Regex.growing_of_length (Regex.length_rests_of_takesOne (class?_takesOne found) s)
  | char c =>
    cases found
    exact Regex.growing_of_length (Regex.length_rests_of_takesOne rfl s)

/-! ## What remains after the preferred match -/

/-- What remains of a text after the match that a row prefers. -/
def Run.remainder? (run : Run) (s : List Char) : Option (List Char) :=
  run.regexes?.bind fun rs => ((Regex.sequence rs).rests [s]).head?

/-- Whether a row matches a start of a text. -/
def Run.Matches (run : Run) (s : List Char) : Prop :=
  ∃ w ∈ run.words, w <+: s

theorem head?_eq_findSome? {α : Type} (l : List α) : l.head? = l.findSome? some := by
  cases l <;> rfl

section Remainder

variable {run rest : Run} {rs : List Regex} {s t : List Char}

theorem Run.remainder?_eq (found : run.regexes? = some rs) (s : List Char) :
    run.remainder? s = ((Regex.sequence rs).rests [s]).head? := by
  rw [Run.remainder?, found]
  rfl

theorem Run.remainder?_isSome_iff (compiles : run.Compiles) : (run.remainder? s).isSome ↔ run.Matches s := by
  obtain ⟨rs, found⟩ := Option.isSome_iff_exists.mp compiles
  rw [Run.remainder?_eq found, Run.Matches, ← run.language_eq found, List.isSome_head?]
  constructor
  · intro filled
    obtain ⟨t, member⟩ := List.exists_mem_of_ne_nil _ filled
    obtain ⟨w, inside, rfl⟩ := (Regex.mem_rests_single _ s t).mp member
    exact ⟨w, inside, List.prefix_append w t⟩
  · rintro ⟨w, inside, t, rfl⟩
    exact List.ne_nil_of_mem ((Regex.mem_rests_single _ _ t).mpr ⟨w, inside, rfl⟩)

/-- What is preferred behind some items is what remains of the first of their remains that leads on. -/
theorem remainder?_items (items : List Regex) (whole : run.regexes? = some (items ++ rs))
    (found : rest.regexes? = some rs) (s : List Char) :
    run.remainder? s = ((Regex.sequence items).rests [s]).findSome? rest.remainder? := by
  have later (t : List Char) : rest.remainder? t = ((Regex.sequence rs).rests [t]).findSome? some := by
    rw [Run.remainder?_eq found, head?_eq_findSome?]
  rw [Run.remainder?_eq whole, head?_eq_findSome?, Regex.rests_sequence_append, Regex.findSome?_seq]
  exact Regex.findSome?_congr fun t _ => (later t).symm

theorem remainder?_item {r : Regex} (whole : run.regexes? = some (r :: rs)) (found : rest.regexes? = some rs)
    (s : List Char) : run.remainder? s = (r.rests [s]).findSome? rest.remainder? :=
  remainder?_items [r] whole found s

/-- A piece takes as much as it can so that what follows still matches. -/
theorem Run.remainder?_piece {p : Piece} (compiles : (Run.piece p rest).Compiles) :
    (Run.piece p rest).remainder? s = some t ↔ ∃ u v, s = u ++ v ∧ u ∈ p.words ∧ rest.remainder? v = some t ∧
      ∀ u' v', s = u' ++ v' → u' ∈ p.words → rest.Matches v' → u'.length ≤ u.length := by
  obtain ⟨own, later⟩ := Run.compiles_piece.mp compiles
  obtain ⟨r, first⟩ := Option.isSome_iff_exists.mp own
  obtain ⟨rs, found⟩ := Option.isSome_iff_exists.mp later
  have whole : (Run.piece p rest).regexes? = some (r :: rs) := by rw [Run.regexes?, first, found]; rfl
  rw [remainder?_item whole found, (Piece.growing first s).findSome?_eq_some_iff]
  simp only [Regex.mem_rests_single, Piece.language_eq first, Run.remainder?_isSome_iff later]
  constructor
  · rintro ⟨v, ⟨u, inside, rfl⟩, leads, shortest⟩
    refine ⟨u, v, rfl, inside, leads, fun u' v' split inside' leads' => ?_⟩
    have less := shortest v' ⟨u', inside', split⟩ leads'
    have sizes := congrArg List.length split
    rw [List.length_append, List.length_append] at sizes
    omega
  · rintro ⟨u, v, rfl, inside, leads, longest⟩
    refine ⟨v, ⟨u, inside, rfl⟩, leads, ?_⟩
    rintro v' ⟨u', inside', split⟩ leads'
    have less := longest u' v' split inside' leads'
    have sizes := congrArg List.length split
    rw [List.length_append, List.length_append] at sizes
    omega

theorem Run.remainder?_append {front : Run} (one : front.regexes? = some rs) (compiles : rest.Compiles)
    (s : List Char) :
    (front.append rest).remainder? s = ((Regex.sequence rs).rests [s]).findSome? rest.remainder? := by
  obtain ⟨rs', found⟩ := Option.isSome_iff_exists.mp compiles
  have whole : (front.append rest).regexes? = some (rs ++ rs') := by rw [Run.regexes?_append, one, found]; rfl
  exact remainder?_items rs whole found s

theorem Run.remainder?_group {choice : Choice} {r : Regex} (one : choice.regex? = some r) (compiles : rest.Compiles)
    (s : List Char) :
    (Run.group choice rest).remainder? s = (r.rests [s]).findSome? rest.remainder? := by
  obtain ⟨rs, found⟩ := Option.isSome_iff_exists.mp compiles
  have whole : (Run.group choice rest).regexes? = some (.group r :: rs) := by
    rw [Run.regexes?, one, found]
    rfl
  exact remainder?_item whole found s

/-- A group takes the first alternative with which what follows still matches. -/
theorem Run.remainder?_alternatives (choice : Choice) (compiles : (Run.group choice rest).Compiles) (s : List Char) :
    (Run.group choice rest).remainder? s =
      choice.alternatives.findSome? fun a => (a.append rest).remainder? s := by
  obtain ⟨own, later⟩ := Run.compiles_group.mp compiles
  cases choice with
  | last a =>
    obtain ⟨r, found⟩ := Option.isSome_iff_exists.mp own
    obtain ⟨rs, one, rfl⟩ := Option.map_eq_some_iff.mp found
    rw [Run.remainder?_group found later, Choice.alternatives, List.findSome?_singleton,
      Run.remainder?_append one later]
  | more first choice =>
    obtain ⟨r, found⟩ := Option.isSome_iff_exists.mp own
    obtain ⟨rs, one, others⟩ := Option.bind_eq_some_iff.mp found
    obtain ⟨r', two, rfl⟩ := Option.map_eq_some_iff.mp others
    have further : (Run.group choice rest).Compiles := Run.compiles_group.mpr ⟨by rw [two]; rfl, later⟩
    rw [Run.remainder?_group found later, Regex.findSome?_alt, Choice.alternatives, List.findSome?_cons,
      ← Run.remainder?_alternatives choice further s, Run.remainder?_group two later,
      ← Run.remainder?_append one later]
    cases (first.append rest).remainder? s <;> rfl

end Remainder

/-! ## What may remain for some order of the alternatives -/

/-- A text may remain if each piece takes as much as it can so that what follows still matches, and each group
takes any alternative. -/
inductive Run.MayLeave : Run → List Char → List Char → Prop
  | nil (s : List Char) : Run.MayLeave .nil s s
  | piece {p : Piece} {rest : Run} {u v t : List Char} (inside : u ∈ p.words)
      (longest : ∀ u' v', u ++ v = u' ++ v' → u' ∈ p.words → rest.Matches v' → u'.length ≤ u.length)
      (later : Run.MayLeave rest v t) : Run.MayLeave (.piece p rest) (u ++ v) t
  | group {choice : Choice} {a rest : Run} {s t : List Char} (among : a ∈ choice.alternatives)
      (later : Run.MayLeave (a.append rest) s t) : Run.MayLeave (.group choice rest) s t

/-- What remains after the preferred match may remain. -/
theorem Run.mayLeave_of_remainder? {run : Run} (compiles : run.Compiles) {s t : List Char}
    (found : run.remainder? s = some t) : run.MayLeave s t := by
  induction run using Run.byParts generalizing s t with
  | nil =>
    cases found
    exact .nil _
  | piece p rest ih =>
    obtain ⟨u, v, rfl, inside, leads, longest⟩ := (Run.remainder?_piece compiles).mp found
    exact .piece inside longest (ih (Run.compiles_piece.mp compiles).2 leads)
  | group choice rest _ each _ =>
    obtain ⟨own, behind⟩ := Run.compiles_group.mp compiles
    rw [Run.remainder?_alternatives choice compiles] at found
    obtain ⟨a, among, found⟩ := List.exists_of_findSome?_eq_some found
    exact .group among (each a among (Run.compiles_append.mpr ⟨choice.compiles_iff.mp own a among, behind⟩) found)

/-- What may remain of a row and another one behind it may remain of the other, behind a word of the row. -/
theorem Run.MayLeave.split {front rest : Run} {s t : List Char} (leaves : (front.append rest).MayLeave s t) :
    ∃ w ∈ front.words, ∃ v, s = w ++ v ∧ rest.MayLeave v t := by
  induction front using Run.byParts generalizing s with
  | nil => exact ⟨[], rfl, s, rfl, leaves⟩
  | piece p front ih =>
    cases leaves with
    | piece inside longest later =>
      obtain ⟨w, word, v, rfl, behind⟩ := ih later
      exact ⟨_, Language.append_mem_mul inside word, v, (List.append_assoc _ w v).symm, behind⟩
  | group choice front _ each _ =>
    cases leaves with
    | @group _ a _ _ _ among later =>
      rw [← Run.append_assoc] at later
      obtain ⟨w, word, v, rfl, behind⟩ := each a among later
      exact ⟨w, Run.mem_words_group.mpr ⟨a, among, word⟩, v, rfl, behind⟩

theorem Run.MayLeave.word {run : Run} {s t : List Char} (leaves : run.MayLeave s t) :
    ∃ w ∈ run.words, s = w ++ t := by
  rw [← run.append_nil] at leaves
  obtain ⟨w, word, v, rfl, behind⟩ := leaves.split
  cases behind
  exact ⟨w, word, rfl⟩

end LinterClient.Glob
