import LinterClient.Proofs.Glob.Classes
import LinterClient.Proofs.Glob.Pattern

/-!
The regular expression of a glob.

The text that is written for the tokens of a row is read back as an expression that is built as the row is:
one item for each piece, one choice for each group. A class that says nothing makes the whole text invalid.
-/

namespace LinterClient.Glob

open Regex (withStar)

def notSlash : Regex :=
  .set true (.ranges [('/', '/')])

/-- The expression of a piece, unless it is a class that has none. -/
def Piece.regex? : Piece → Option Regex
  | .segments => some (.star (.group (.seq (.star notSlash) (.char '/'))))
  | .anything => some (.star .anyChar)
  | .star => some (.star notSlash)
  | .single => some notSlash
  | .charClass negated body => class? negated body
  | .char c => some (.char c)

mutual

/-- The expressions of the pieces and groups of a row. -/
def Run.regexes? : Run → Option (List Regex)
  | .nil => some []
  | .piece first rest => first.regex?.bind fun r => rest.regexes?.map (r :: ·)
  | .group alternatives rest => alternatives.regex?.bind fun r => rest.regexes?.map (.group r :: ·)

def Choice.regex? : Choice → Option Regex
  | .last run => run.regexes?.map Regex.sequence
  | .more first rest => first.regexes?.bind fun rs => rest.regex?.map (.alt (Regex.sequence rs) ·)

end

/-! ## What the parser reads -/

section Reading

variable {fuel : Nat} {s rest : List Char} {c : Char} {r : Regex}

theorem items_stop (stops : s = [] ∨ s.head? = some ')' ∨ s.head? = some '|') :
    Regex.items (fuel + 1) s = some ([], s) := by
  cases s with
  | nil => rfl
  | cons c s =>
    simp only [List.cons_ne_nil, List.head?_cons, Option.some.injEq, false_or] at stops
    rcases stops with rfl | rfl <;> rfl

theorem items_of_atom (close : c ≠ ')') (bar : c ≠ '|') (found : Regex.atom fuel (c :: s) = some (r, rest)) :
    Regex.items (fuel + 1) (c :: s) = (Regex.items fuel (withStar r rest).2).map
      fun x => ((withStar r rest).1 :: x.1, x.2) := by
  rw [Regex.items]
  · simp only [found]
    cases Regex.items fuel (withStar r rest).2 <;> rfl
  all_goals simp [close, bar]

theorem items_of_refused (close : c ≠ ')') (bar : c ≠ '|') (refused : Regex.atom fuel (c :: s) = none) :
    Regex.items (fuel + 1) (c :: s) = none := by
  rw [Regex.items]
  · simp only [refused]
  all_goals simp [close, bar]

theorem withStar_plain (plain : s.head? ≠ some '*') : withStar r s = (r, s) := by
  cases s with
  | nil => rfl
  | cons c s =>
    rw [withStar]
    rintro rest ⟨rfl, rfl⟩
    exact plain rfl

theorem atom_char (fuel : Nat) (s : List Char) (plain : Regex.isMeta c = false) :
    Regex.atom (fuel + 1) (c :: s) = some (.char c, s) := by
  have other (d : Char) (special : Regex.isMeta d = true) : c ≠ d := by
    rintro rfl
    exact Bool.false_ne_true (plain.symm.trans special)
  rw [Regex.atom]
  · simp [plain]
  all_goals simp [other '(' rfl, other '[' rfl, other '.' rfl, other '\\' rfl]

theorem atom_escaped (fuel : Nat) (s : List Char) (special : Regex.isMeta c = true) :
    Regex.atom (fuel + 1) ('\\' :: c :: s) = some (.char c, s) := by
  rw [Regex.atom, if_pos special]

theorem charClass_notSlash (s : List Char) :
    Regex.charClass ('^' :: '/' :: ']' :: s) = some (notSlash, s) := rfl

theorem atom_notSlash (fuel : Nat) (s : List Char) :
    Regex.atom (fuel + 1) ('[' :: '^' :: '/' :: ']' :: s) = some (notSlash, s) := by
  rw [Regex.atom, charClass_notSlash]

end Reading

theorem source_head (t : Token) (s : List Char) : (t.source ++ s).head? ≠ some '*' := by
  cases t with
  | char c =>
    rw [source_char, escape]
    split
    · simp
    · rename_i plain
      simp only [List.cons_append, List.head?_cons, ne_eq, Option.some.injEq]
      rintro rfl
      exact plain rfl
  | _ => simp

theorem sources_head (ts : List Token) : (ts.flatMap Token.source).head? ≠ some '*' := by
  cases ts with
  | nil => simp
  | cons t ts => exact source_head t _

theorem source_pos (t : Token) : 0 < t.source.length := by
  cases t with
  | char c =>
    rw [source_char, escape]
    split <;> simp
  | _ => simp

/-- One piece is read as one item. -/
theorem items_piece {inGroup : Bool} {p : Piece} {next : List Char} (fits : p.Fits inGroup next)
    (ts : List Token) {fuel : Nat} (enough : 3 * p.token.source.length ≤ fuel) :
    Regex.items (fuel + 1) (p.token.source ++ ts.flatMap Token.source) = p.regex?.bind fun r =>
      (Regex.items fuel (ts.flatMap Token.source)).map fun x => (r :: x.1, x.2) := by
  have plain (r : Regex) := withStar_plain (r := r) (sources_head ts)
  have long := source_pos p.token
  obtain ⟨fuel, rfl⟩ := Nat.exists_eq_add_of_le' (Nat.le_trans (by omega : 1 ≤ _) enough)
  cases p with
  | segments =>
    simp only [Piece.token, source_segments, List.length_cons, List.length_nil] at enough
    obtain ⟨fuel, rfl⟩ := Nat.exists_eq_add_of_le' (by omega : 5 ≤ fuel)
    have inner : Regex.atom (fuel + 5 + 1) ('(' :: '?' :: ':' :: '[' :: '^' :: '/' :: ']' :: '*' :: '/' :: ')' ::
        '*' :: ts.flatMap Token.source) =
        some (.group (.seq (.star notSlash) (.char '/')), '*' :: ts.flatMap Token.source) := rfl
    exact items_of_atom (by decide) (by decide) inner
  | anything =>
    have inner : Regex.atom (fuel + 1) ('.' :: '*' :: ts.flatMap Token.source) =
        some (.anyChar, '*' :: ts.flatMap Token.source) := rfl
    exact items_of_atom (by decide) (by decide) inner
  | star => exact items_of_atom (by decide) (by decide) (atom_notSlash _ _)
  | single =>
    have read := items_of_atom (c := '[') (by decide) (by decide)
      (atom_notSlash fuel (ts.flatMap Token.source))
    rw [plain] at read
    exact read
  | charClass negated body =>
    have whole := charClass_source negated fits.1 ts
    have atom : Regex.atom (fuel + 1) ('[' :: (classText negated body ++ ts.flatMap Token.source)) =
        (class? negated body).map (·, ts.flatMap Token.source) := by
      rw [Regex.atom, whole]
    simp only [Piece.token, Piece.regex?, source_charClass, List.cons_append]
    cases found : class? negated body with
    | none =>
      rw [found] at atom
      exact items_of_refused (by decide) (by decide) atom
    | some r =>
      rw [found] at atom
      rw [items_of_atom (by decide) (by decide) atom, plain]
      rfl
  | char c =>
    simp only [Piece.token, Piece.regex?, source_char, escape, Option.bind_some]
    split
    · rename_i special
      have read := items_of_atom (c := '\\') (by decide) (by decide)
        (atom_escaped fuel (ts.flatMap Token.source) special)
      rw [plain] at read
      exact read
    · rename_i ordinary
      have ordinary : Regex.isMeta c = false := by simpa using ordinary
      have close : c ≠ ')' := by
        rintro rfl
        cases ordinary
      have bar : c ≠ '|' := by
        rintro rfl
        cases ordinary
      have read := items_of_atom close bar (atom_char fuel (ts.flatMap Token.source) ordinary)
      rw [plain] at read
      exact read

/-! ## What is read of a row -/

/-- Whether tokens behind a row end it. -/
def Stops (ts : List Token) : Prop :=
  ts = [] ∨ ts.head? = some .groupEnd ∨ ts.head? = some .separator

theorem Stops.source {ts : List Token} (stops : Stops ts) :
    ts.flatMap Token.source = [] ∨ (ts.flatMap Token.source).head? = some ')' ∨
      (ts.flatMap Token.source).head? = some '|' := by
  cases ts with
  | nil => exact Or.inl rfl
  | cons t ts =>
    rcases stops with empty | first | first
    · cases empty
    · cases first
      exact Or.inr (Or.inl rfl)
    · cases first
      exact Or.inr (Or.inr rfl)

mutual

theorem Run.items_source (run : Run) {inGroup : Bool} (fits : run.Fits inGroup) {ts : List Token}
    (stops : Stops ts) (fuel : Nat) (enough : 3 * ((run.tokens ++ ts).flatMap Token.source).length + 1 ≤ fuel) :
    Regex.items fuel ((run.tokens ++ ts).flatMap Token.source) =
      run.regexes?.map (·, ts.flatMap Token.source) := by
  obtain ⟨fuel, rfl⟩ := Nat.exists_eq_add_of_le' (by omega : 1 ≤ fuel)
  cases run with
  | nil =>
    simp only [Run.tokens, List.nil_append]
    exact items_stop stops.source
  | piece first rest =>
    simp only [Run.tokens, Run.regexes?, List.cons_append, List.flatMap_cons, List.length_append] at enough ⊢
    have long := source_pos first.token
    rw [items_piece fits.1 _ (by omega), rest.items_source fits.2 stops _ (by omega)]
    cases first.regex? with
    | none => rfl
    | some r => cases rest.regexes? <;> rfl
  | group alternatives rest =>
    simp only [Run.tokens, Run.regexes?, List.cons_append, List.append_assoc, List.flatMap_cons,
      source_groupStart, List.nil_append, List.length_cons] at enough ⊢
    obtain ⟨fuel, rfl⟩ := Nat.exists_eq_add_of_le' (by omega : 1 ≤ fuel)
    have closed : (Token.groupEnd :: (rest.tokens ++ ts)).head? = some .groupEnd := rfl
    have inner := alternatives.choice_source fits.1 (Or.inr closed) fuel (by omega)
    have shorter : ((rest.tokens ++ ts).flatMap Token.source).length ≤
        ((alternatives.tokens ++ .groupEnd :: (rest.tokens ++ ts)).flatMap Token.source).length := by
      simp only [List.flatMap_append, List.flatMap_cons, List.length_append]
      omega
    have later := rest.items_source fits.2 stops (fuel + 1) (by omega)
    cases found : alternatives.regex? with
    | none =>
      rw [found] at inner
      apply items_of_refused (by decide) (by decide)
      rw [Regex.atom, inner]
      rfl
    | some r =>
      rw [found] at inner
      have atom : Regex.atom (fuel + 1) ('(' :: '?' :: ':' ::
          (alternatives.tokens ++ .groupEnd :: (rest.tokens ++ ts)).flatMap Token.source) =
          some (.group r, (rest.tokens ++ ts).flatMap Token.source) := by
        rw [Regex.atom, inner]
        rfl
      rw [items_of_atom (by decide) (by decide) atom, withStar_plain (sources_head _), later]
      cases rest.regexes? <;> rfl

theorem Choice.choice_source (choice : Choice) (fits : choice.Fits) {ts : List Token}
    (stops : ts = [] ∨ ts.head? = some .groupEnd) (fuel : Nat)
    (enough : 3 * ((choice.tokens ++ ts).flatMap Token.source).length + 2 ≤ fuel) :
    Regex.choice fuel ((choice.tokens ++ ts).flatMap Token.source) =
      choice.regex?.map (·, ts.flatMap Token.source) := by
  obtain ⟨fuel, rfl⟩ := Nat.exists_eq_add_of_le' (by omega : 1 ≤ fuel)
  cases choice with
  | last run =>
    have stops' : Stops ts := stops.imp_right Or.inl
    simp only [Choice.tokens, Choice.regex?] at enough ⊢
    rw [Regex.choice, run.items_source fits stops' _ (by omega)]
    cases run.regexes? with
    | none => rfl
    | some rs =>
      cases ts with
      | nil => rfl
      | cons t ts =>
        rcases stops with empty | first
        · cases empty
        · cases first
          rfl
  | more first rest =>
    simp only [Choice.tokens, Choice.regex?, List.append_assoc, List.cons_append] at enough ⊢
    have shorter : ((rest.tokens ++ ts).flatMap Token.source).length <
        ((first.tokens ++ .separator :: (rest.tokens ++ ts)).flatMap Token.source).length := by
      simp only [List.flatMap_append, List.flatMap_cons, List.length_append, source_separator, List.length_cons]
      omega
    have later := rest.choice_source fits.2 stops fuel (by omega)
    rw [Regex.choice, first.items_source fits.1 (Or.inr (Or.inr rfl)) _ (by omega)]
    cases first.regexes? with
    | none => rfl
    | some rs =>
      simp only [Option.map_some, List.flatMap_cons, source_separator, List.cons_append, List.nil_append, later]
      cases rest.regex? <;> rfl

end

/-! ## The expression of a glob -/

/-- The expression of a row, unless one of its classes has none or it nests too deep. -/
def Run.regex? (run : Run) : Option Regex :=
  (run.regexes?.map Regex.sequence).filter (·.anchoredDepth ≤ Regex.maxDepth)

theorem Run.parseAnchored_source (run : Run) {inGroup : Bool} (fits : run.Fits inGroup) :
    Regex.parseAnchored (String.ofList ('^' :: run.tokens.flatMap Token.source)) = run.regex? := by
  have nothing : Stops [] := Or.inl rfl
  have read := run.items_source fits nothing (3 * (run.tokens.flatMap Token.source).length + 2) (by simp)
  rw [List.append_nil, List.flatMap_nil] at read
  simp only [Regex.parseAnchored, String.toList_ofList, Regex.choice, read, Run.regex?]
  cases run.regexes? with
  | none => rfl
  | some rs => simp [Option.filter]

/-- A glob becomes the expression of the row that it is read as. -/
theorem Reads.compile?_eq {glob : String} {run : Run} (reads : Reads glob run) :
    compile? glob = run.regex?.map (String.ofList ('^' :: run.tokens.flatMap Token.source), ·) := by
  simp only [compile?, source?, reads.tokens_eq, Option.map_some, Option.bind_some,
    run.parseAnchored_source reads.1]

/-- A glob that is accepted is read as a row, and has that row's expression. -/
theorem reads_of_compile? {glob text : String} {r : Regex} (accepted : compile? glob = some (text, r)) :
    ∃ run, Reads glob run ∧ run.regex? = some r := by
  simp only [compile?, source?] at accepted
  cases read : tokens 0 glob.toList with
  | none =>
    rw [read] at accepted
    cases accepted
  | some ts =>
    obtain ⟨run, reads, rfl⟩ := tokens_eq_some_iff.mp read
    refine ⟨run, reads, ?_⟩
    rw [read] at accepted
    simp only [Option.map_some, Option.bind_some, run.parseAnchored_source reads.1] at accepted
    obtain ⟨r', found, same⟩ := Option.map_eq_some_iff.mp accepted
    rw [found, (Prod.mk.inj same).2]

/-- The match of a glob is that of the row that it is read as. -/
theorem Reads.match?_eq {glob : String} {run : Run} (reads : Reads glob run) (subject : String) :
    match? glob subject = run.regex?.bind (·.find? subject) := by
  rw [match?, reads.compile?_eq]
  cases run.regex? <;> rfl

/-! ## One row for each glob -/

theorem Piece.token_injective {p q : Piece} (same : p.token = q.token) : p = q := by
  cases p <;> cases q <;> cases same <;> rfl

theorem not_stops_piece (p : Piece) (ts : List Token) : ¬ Stops (p.token :: ts) := by
  cases p <;> simp [Stops, Piece.token]

theorem not_stops_group (ts : List Token) : ¬ Stops (.groupStart :: ts) := by
  simp [Stops]

mutual

theorem Run.tokens_inj {run run' : Run} {ts ts' : List Token} (stops : Stops ts) (stops' : Stops ts')
    (same : run.tokens ++ ts = run'.tokens ++ ts') : run = run' ∧ ts = ts' := by
  cases run with
  | nil =>
    cases run' with
    | nil => exact ⟨rfl, same⟩
    | piece p' rest' =>
      have start : ts = p'.token :: (rest'.tokens ++ ts') := same
      exact absurd (start ▸ stops) (not_stops_piece p' _)
    | group choice' rest' =>
      have start : ts = .groupStart :: (choice'.tokens ++ .groupEnd :: rest'.tokens ++ ts') := same
      exact absurd (start ▸ stops) (not_stops_group _)
  | piece p rest =>
    cases run' with
    | nil =>
      have start : ts' = p.token :: (rest.tokens ++ ts) := same.symm
      exact absurd (start ▸ stops') (not_stops_piece p _)
    | piece p' rest' =>
      obtain ⟨first, later⟩ := List.cons.inj same
      obtain ⟨rfl, behind⟩ := Run.tokens_inj stops stops' later
      rw [Piece.token_injective first]
      exact ⟨rfl, behind⟩
    | group choice' rest' =>
      have first := (List.cons.inj same).1
      cases p <;> cases first
  | group choice rest =>
    cases run' with
    | nil =>
      have start : ts' = .groupStart :: (choice.tokens ++ .groupEnd :: rest.tokens ++ ts) := same.symm
      exact absurd (start ▸ stops') (not_stops_group _)
    | piece p' rest' =>
      have first := (List.cons.inj same).1
      cases p' <;> cases first
    | group choice' rest' =>
      simp only [Run.tokens, List.cons_append, List.append_assoc, List.cons.injEq, true_and] at same
      obtain ⟨rfl, later⟩ := Choice.tokens_inj same
      obtain ⟨rfl, behind⟩ := Run.tokens_inj stops stops' later
      exact ⟨rfl, behind⟩

theorem Choice.tokens_inj {choice choice' : Choice} {ts ts' : List Token}
    (same : choice.tokens ++ .groupEnd :: ts = choice'.tokens ++ .groupEnd :: ts') :
    choice = choice' ∧ ts = ts' := by
  have ends (ts : List Token) : Stops (.groupEnd :: ts) := Or.inr (Or.inl rfl)
  have separates (ts : List Token) : Stops (.separator :: ts) := Or.inr (Or.inr rfl)
  cases choice with
  | last run =>
    cases choice' with
    | last run' =>
      obtain ⟨rfl, behind⟩ := Run.tokens_inj (ends _) (ends _) same
      exact ⟨rfl, (List.cons.inj behind).2⟩
    | more first' rest' =>
      rw [Choice.tokens, Choice.tokens, List.append_assoc] at same
      have behind := (Run.tokens_inj (ends _) (separates _) same).2
      cases behind
  | more first rest =>
    cases choice' with
    | last run' =>
      rw [Choice.tokens, Choice.tokens, List.append_assoc] at same
      have behind := (Run.tokens_inj (separates _) (ends _) same).2
      cases behind
    | more first' rest' =>
      rw [Choice.tokens, Choice.tokens, List.append_assoc, List.append_assoc] at same
      obtain ⟨rfl, behind⟩ := Run.tokens_inj (separates _) (separates _) same
      obtain ⟨rfl, later⟩ := Choice.tokens_inj (List.cons.inj behind).2
      exact ⟨rfl, later⟩

end

/-- A glob is read as one row only. -/
theorem Reads.unique {glob : String} {run run' : Run} (reads : Reads glob run) (reads' : Reads glob run') :
    run = run' := by
  have same := Option.some.inj (reads.tokens_eq.symm.trans reads'.tokens_eq)
  have nothing : Stops [] := Or.inl rfl
  exact (Run.tokens_inj nothing nothing (congrArg (· ++ []) same)).1

end LinterClient.Glob
