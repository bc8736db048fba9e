import LinterClient.Proofs.Glob.Preference

/-!
Globs whose alternatives stand in another order.

The order changes neither the words of a glob nor how deep its expression nests and whether it is accepted, so a glob
matches in every order or in none. What may remain does not depend on the order either, and all of it does remain for
some order: the alternatives that are taken have to come first.
-/

namespace LinterClient.Regex

/-- How deep several expressions next to each other nest; a single one counts alone. -/
def nesting (depths : List Nat) : Nat :=
  (if 1 < depths.length then 1 else 0) + depths.foldr max 0

theorem nesting_perm {depths depths' : List Nat} (order : depths.Perm depths') : nesting depths = nesting depths' := by
  rw [nesting, nesting, order.length_eq, order.foldr_eq]

theorem nesting_singleton (d : Nat) : nesting [d] = d := by
  simp [nesting]

theorem depth_sequence {rs : List Regex} (items : ∀ r ∈ rs, r.isItem = true) :
    (sequence rs).depth = nesting (rs.map depth) := by
  match rs with
  | [] => rfl
  | [r] => rw [List.map_singleton, nesting_singleton, sequence]
  | r :: r' :: rs =>
    have later := seqDepth_sequence fun r'' member => items r'' (List.mem_cons_of_mem _ member)
    rw [sequence_cons_cons, depth, later, nesting, List.foldr_map]
    simp [deepest]

theorem altDepth_sequence {rs : List Regex} (items : ∀ r ∈ rs, r.isItem = true) :
    (sequence rs).altDepth = (sequence rs).depth := by
  match rs with
  | [] => rfl
  | [r] =>
    have item := items r List.mem_cons_self
    cases r with
    | empty | seq | alt => cases item
    | _ => simp [sequence, altDepth, depth]
  | r :: r' :: rs => rw [sequence_cons_cons, altDepth, depth]

theorem anchoredDepth_congr {rs rs' : List Regex} (items : ∀ r ∈ rs, r.isItem = true)
    (items' : ∀ r ∈ rs', r.isItem = true) (same : rs.map depth = rs'.map depth) :
    (sequence rs).anchoredDepth = (sequence rs').anchoredDepth := by
  have flat (rs : List Regex) : deepest rs = (rs.map depth).foldr max 0 := by rw [List.foldr_map]; rfl
  cases rs with
  | nil =>
    have none : rs' = [] := by simpa using same.symm
    rw [none]
  | cons r rs =>
    have filled : rs' ≠ [] := by
      rintro rfl
      cases same
    rw [anchoredDepth_sequence items (by simp), anchoredDepth_sequence items' filled, flat, flat, same]

end LinterClient.Regex

namespace LinterClient.Glob

open Computability
open Regex (nesting)

/-- How deep each piece and group of a row nests. -/
def Run.depths (run : Run) : List Nat :=
  (run.regexes?.getD []).map Regex.depth

theorem Choice.altDepth_eq {choice : Choice} {r : Regex} (found : choice.regex? = some r) :
    r.altDepth = (choice.alternatives.map fun a => nesting a.depths).foldr max 0 := by
  cases choice with
  | last run =>
    obtain ⟨rs, one, rfl⟩ := Option.map_eq_some_iff.mp found
    have items := run.regexes?_items one
    rw [Regex.altDepth_sequence items, Regex.depth_sequence items]
    simp [Choice.alternatives, Run.depths, one]
  | more first rest =>
    obtain ⟨rs, one, others⟩ := Option.bind_eq_some_iff.mp found
    obtain ⟨r, later, rfl⟩ := Option.map_eq_some_iff.mp others
    rw [Regex.altDepth, Regex.depth_sequence (first.regexes?_items one), Choice.altDepth_eq later]
    simp [Choice.alternatives, Run.depths, one]

theorem Choice.depth_eq {choice : Choice} {r : Regex} (found : choice.regex? = some r) :
    r.depth = nesting (choice.alternatives.map fun a => nesting a.depths) := by
  have deepest := Choice.altDepth_eq found
  cases choice with
  | last run =>
    obtain ⟨rs, one, rfl⟩ := Option.map_eq_some_iff.mp found
    rw [← Regex.altDepth_sequence (run.regexes?_items one), deepest]
    simp [Choice.alternatives, Regex.nesting_singleton]
  | more first rest =>
    obtain ⟨rs, one, others⟩ := Option.bind_eq_some_iff.mp found
    obtain ⟨r, later, rfl⟩ := Option.map_eq_some_iff.mp others
    have several : 1 < ((Choice.more first rest).alternatives.map fun a => nesting a.depths).length := by
      cases rest <;> simp [Choice.alternatives]
    rw [nesting, if_pos several, ← deepest, Regex.depth, Regex.altDepth]

/-! ## Reordering -/

/-- Two rows differ only in the order of alternatives, at any depth. -/
inductive Run.Reordered : Run → Run → Prop
  | nil : Run.Reordered .nil .nil
  | piece (p : Piece) {rest rest' : Run} (later : Run.Reordered rest rest') :
      Run.Reordered (.piece p rest) (.piece p rest')
  | group {choice choice' : Choice} {rest rest' : Run} {l : List Run}
      (aligned : List.Forall₂ Run.Reordered choice.alternatives l) (order : l.Perm choice'.alternatives)
      (later : Run.Reordered rest rest') : Run.Reordered (.group choice rest) (.group choice' rest')

theorem exists_of_mem_left {R : Run → Run → Prop} {l l' : List Run} (each : List.Forall₂ R l l') {a : Run}
    (among : a ∈ l) : ∃ a' ∈ l', R a a' := by
  induction each with
  | nil => cases among
  | @cons b b' l l' one others ih =>
    rcases List.mem_cons.mp among with rfl | among
    · exact ⟨b', List.mem_cons_self, one⟩
    · obtain ⟨a', among, related⟩ := ih among
      exact ⟨a', List.mem_cons_of_mem _ among, related⟩

theorem map_eq_of_each {β : Type} {R : Run → Run → Prop} {f : Run → β} {l l' : List Run}
    (each : List.Forall₂ R l l') (same : ∀ a ∈ l, ∀ a', R a a' → f a' = f a) : l'.map f = l.map f := by
  induction each with
  | nil => rfl
  | cons one others ih =>
    rw [List.map_cons, List.map_cons, same _ List.mem_cons_self _ one]
    rw [ih fun a among => same a (List.mem_cons_of_mem _ among)]

section Group

variable {choice choice' : Choice} {l : List Run}

theorem exists_reordered (aligned : List.Forall₂ Run.Reordered choice.alternatives l)
    (order : l.Perm choice'.alternatives) {a : Run} (among : a ∈ choice.alternatives) :
    ∃ a' ∈ choice'.alternatives, a.Reordered a' := by
  obtain ⟨a', inside, related⟩ := exists_of_mem_left aligned among
  exact ⟨a', order.mem_iff.mp inside, related⟩

theorem exists_reordered_from (aligned : List.Forall₂ Run.Reordered choice.alternatives l)
    (order : l.Perm choice'.alternatives) {a' : Run} (among : a' ∈ choice'.alternatives) :
    ∃ a ∈ choice.alternatives, a.Reordered a' :=
  exists_of_mem_left aligned.flip (order.mem_iff.mpr among)

end Group

theorem Run.Reordered.of_piece {p : Piece} {rest whole : Run} (reordered : (Run.piece p rest).Reordered whole) :
    ∃ rest', whole = .piece p rest' ∧ rest.Reordered rest' := by
  cases reordered with
  | piece p later => exact ⟨_, rfl, later⟩

theorem Run.Reordered.of_group {choice : Choice} {rest whole : Run}
    (reordered : (Run.group choice rest).Reordered whole) :
    ∃ choice' rest' l, whole = .group choice' rest' ∧ List.Forall₂ Run.Reordered choice.alternatives l ∧
      l.Perm choice'.alternatives ∧ rest.Reordered rest' := by
  cases reordered with
  | group aligned order later => exact ⟨_, _, _, rfl, aligned, order, later⟩

theorem Run.Reordered.refl (run : Run) : run.Reordered run := by
  induction run using Run.byParts with
  | nil => exact .nil
  | piece p rest ih => exact .piece p ih
  | group choice rest each _ ih => exact .group (List.forall₂_same.mpr each) (List.Perm.refl _) ih

section Order

variable {run run' : Run}

theorem Run.Reordered.words_eq (reordered : run.Reordered run') : run'.words = run.words := by
  induction run using Run.byParts generalizing run' with
  | nil =>
    cases reordered
    rfl
  | piece p rest ih =>
    obtain ⟨rest', rfl, later⟩ := reordered.of_piece
    rw [Run.words, Run.words, ih later]
  | group choice rest each _ ih =>
    obtain ⟨choice', rest', l, rfl, aligned, order, later⟩ := reordered.of_group
    have same : choice'.words = choice.words := by
      ext w
      rw [Choice.mem_words, Choice.mem_words]
      constructor
      · rintro ⟨a', among, inside⟩
        obtain ⟨a, among, related⟩ := exists_reordered_from aligned order among
        exact ⟨a, among, each a among related ▸ inside⟩
      · rintro ⟨a, among, inside⟩
        obtain ⟨a', among', related⟩ := exists_reordered aligned order among
        exact ⟨a', among', (each a among related).symm ▸ inside⟩
    rw [Run.words, Run.words, same, ih later]

theorem Run.Reordered.matches_iff (reordered : run.Reordered run') {s : List Char} :
    run'.Matches s ↔ run.Matches s := by
  rw [Run.Matches, Run.Matches, reordered.words_eq]

theorem Run.Reordered.compiles_iff (reordered : run.Reordered run') : run'.Compiles ↔ run.Compiles := by
  induction run using Run.byParts generalizing run' with
  | nil =>
    cases reordered
    rfl
  | piece p rest ih =>
    obtain ⟨rest', rfl, later⟩ := reordered.of_piece
    rw [Run.compiles_piece, Run.compiles_piece, ih later]
  | group choice rest each _ ih =>
    obtain ⟨choice', rest', l, rfl, aligned, order, later⟩ := reordered.of_group
    rw [Run.compiles_group, Run.compiles_group, ih later, choice.compiles_iff, choice'.compiles_iff]
    apply and_congr_left
    intro _
    constructor
    · intro all a among
      obtain ⟨a', among', related⟩ := exists_reordered aligned order among
      exact (each a among related).mp (all a' among')
    · intro all a' among'
      obtain ⟨a, among, related⟩ := exists_reordered_from aligned order among'
      exact (each a among related).mpr (all a among)

theorem Run.depths_piece {p : Piece} {rest : Run} {r : Regex} (one : p.regex? = some r) (compiles : rest.Compiles) :
    (Run.piece p rest).depths = r.depth :: rest.depths := by
  obtain ⟨rs, found⟩ := Option.isSome_iff_exists.mp compiles
  simp [Run.depths, Run.regexes?, one, found]

theorem Run.depths_group {choice : Choice} {rest : Run} (compiles : (Run.group choice rest).Compiles) :
    (Run.group choice rest).depths =
      (1 + Regex.nesting (choice.alternatives.map fun a => Regex.nesting a.depths)) :: rest.depths := by
  obtain ⟨own, later⟩ := Run.compiles_group.mp compiles
  obtain ⟨r, one⟩ := Option.isSome_iff_exists.mp own
  obtain ⟨rs, found⟩ := Option.isSome_iff_exists.mp later
  rw [← Choice.depth_eq one]
  simp [Run.depths, Run.regexes?, one, found, Regex.depth]

theorem Run.Reordered.depths_eq (reordered : run.Reordered run') (compiles : run.Compiles) :
    run'.depths = run.depths := by
  induction run using Run.byParts generalizing run' with
  | nil =>
    cases reordered
    rfl
  | piece p rest ih =>
    obtain ⟨rest', rfl, later⟩ := reordered.of_piece
    obtain ⟨own, behind⟩ := Run.compiles_piece.mp compiles
    obtain ⟨r, one⟩ := Option.isSome_iff_exists.mp own
    rw [Run.depths_piece one (later.compiles_iff.mpr behind), Run.depths_piece one behind, ih later behind]
  | group choice rest each _ ih =>
    have whole := reordered.compiles_iff.mpr compiles
    obtain ⟨choice', rest', l, rfl, aligned, order, later⟩ := reordered.of_group
    obtain ⟨own, behind⟩ := Run.compiles_group.mp compiles
    have same : l.map (fun a => Regex.nesting a.depths) =
        choice.alternatives.map fun a => Regex.nesting a.depths := by
      apply map_eq_of_each aligned
      intro a among a' related
      rw [each a among related (choice.compiles_iff.mp own a among)]
    have nested := Regex.nesting_perm (order.map fun a => Regex.nesting a.depths)
    rw [same] at nested
    rw [Run.depths_group whole, Run.depths_group compiles, ← nested, ih later behind]

/-- A row is accepted in every order of its alternatives or in none. -/
theorem Run.Reordered.regex?_isSome_iff (reordered : run.Reordered run') :
    run'.regex?.isSome ↔ run.regex?.isSome := by
  by_cases compiles : run.Compiles
  · obtain ⟨rs, found⟩ := Option.isSome_iff_exists.mp compiles
    obtain ⟨rs', found'⟩ := Option.isSome_iff_exists.mp (reordered.compiles_iff.mpr compiles)
    have same : rs'.map Regex.depth = rs.map Regex.depth := by
      simpa [Run.depths, found, found'] using reordered.depths_eq compiles
    have level := Regex.anchoredDepth_congr (run'.regexes?_items found') (run.regexes?_items found) same
    simp [Run.regex?, found, found', Option.filter_some, level]
  · have refused : run.regexes? = none := by simpa [Run.Compiles] using compiles
    have refused' : run'.regexes? = none := by simpa [Run.Compiles] using mt reordered.compiles_iff.mp compiles
    simp [Run.regex?, refused, refused']

/-! ## The texts of both rows -/

theorem Run.Reordered.head?_text (reordered : run.Reordered run') : run'.text.head? = run.text.head? := by
  cases run with
  | nil =>
    cases reordered
    rfl
  | piece p rest =>
    obtain ⟨rest', rfl, -⟩ := reordered.of_piece
    have filled : p.text ≠ [] := List.ne_nil_of_length_pos p.text_pos
    rw [Run.text, Run.text, List.head?_append_of_ne_nil _ filled, List.head?_append_of_ne_nil _ filled]
  | group choice rest =>
    obtain ⟨choice', rest', l, rfl, -⟩ := reordered.of_group
    rfl

theorem Piece.fits_congr {inGroup : Bool} {p : Piece} {next next' : List Char} (same : next'.head? = next.head?) :
    p.Fits inGroup next' ↔ p.Fits inGroup next := by
  cases p <;> simp [Piece.Fits, same]

theorem Choice.fits_iff {choice : Choice} : choice.Fits ↔ ∀ a ∈ choice.alternatives, a.Fits true := by
  cases choice with
  | last run => simp [Choice.Fits, Choice.alternatives]
  | more first rest =>
    have later : rest.Fits ↔ ∀ a ∈ rest.alternatives, a.Fits true := Choice.fits_iff
    rw [Choice.Fits, Choice.alternatives, List.forall_mem_cons, later]

theorem Run.Reordered.fits (reordered : run.Reordered run') {inGroup : Bool} (fits : run.Fits inGroup) :
    run'.Fits inGroup := by
  induction run using Run.byParts generalizing run' inGroup with
  | nil =>
    cases reordered
    trivial
  | piece p rest ih =>
    obtain ⟨rest', rfl, later⟩ := reordered.of_piece
    exact ⟨(Piece.fits_congr later.head?_text).mpr fits.1, ih later fits.2⟩
  | group choice rest each _ ih =>
    obtain ⟨choice', rest', l, rfl, aligned, order, later⟩ := reordered.of_group
    refine ⟨Choice.fits_iff.mpr fun a' among' => ?_, ih later fits.2⟩
    obtain ⟨a, among, related⟩ := exists_reordered_from aligned order among'
    exact each a among related (Choice.fits_iff.mp fits.1 a among)

/-- The text of a row in another order is read as that row. -/
theorem Run.Reordered.reads {glob : String} (reordered : run.Reordered run') (reads : Reads glob run) :
    Reads (String.ofList run'.text) run' :=
  ⟨reordered.fits reads.1, String.toList_ofList.symm⟩

theorem Run.Reordered.append {rest rest' : Run} (reordered : run.Reordered run') (behind : rest.Reordered rest') :
    (run.append rest).Reordered (run'.append rest') := by
  induction run using Run.byParts generalizing run' with
  | nil =>
    cases reordered
    exact behind
  | piece p front ih =>
    obtain ⟨front', rfl, later⟩ := reordered.of_piece
    exact .piece p (ih later)
  | group choice front _ _ ih =>
    obtain ⟨choice', front', l, rfl, aligned, order, later⟩ := reordered.of_group
    exact .group aligned order (ih later)

/-- A row with another one behind it is reordered by reordering both. -/
theorem Run.Reordered.split {front rest whole : Run} (reordered : (front.append rest).Reordered whole) :
    ∃ front' rest', front.Reordered front' ∧ rest.Reordered rest' ∧ whole = front'.append rest' := by
  induction front using Run.byParts generalizing whole with
  | nil => exact ⟨.nil, whole, .nil, reordered, rfl⟩
  | piece p front ih =>
    obtain ⟨whole', rfl, later⟩ := reordered.of_piece
    obtain ⟨front', rest', before, behind, rfl⟩ := ih later
    exact ⟨.piece p front', rest', .piece p before, behind, rfl⟩
  | group choice front _ _ ih =>
    obtain ⟨choice', whole', l, rfl, aligned, order, later⟩ := reordered.of_group
    obtain ⟨front', rest', before, behind, rfl⟩ := ih later
    exact ⟨.group choice' front', rest', .group aligned order before, behind, rfl⟩

end Order

/-! ## What may remain -/

theorem Run.Reordered.mayLeave {run run' : Run} (reordered : run.Reordered run') {s t : List Char}
    (leaves : run'.MayLeave s t) : run.MayLeave s t := by
  induction leaves generalizing run with
  | nil s =>
    cases reordered
    exact .nil s
  | piece inside longest later ih =>
    cases reordered with
    | piece p behind =>
      apply MayLeave.piece inside _ (ih behind)
      intro u' v' split inside' leads
      exact longest u' v' split inside' (behind.matches_iff.mpr leads)
  | group among later ih =>
    cases reordered with
    | group aligned order behind =>
      obtain ⟨a, among, related⟩ := exists_reordered_from aligned order among
      exact .group among (ih (related.append behind))

/-- A choice of the given alternatives in the given order. -/
def Choice.ofRuns (first : Run) : List Run → Choice
  | [] => .last first
  | second :: others => .more first (ofRuns second others)

theorem Choice.alternatives_ofRuns (first : Run) (others : List Run) :
    (Choice.ofRuns first others).alternatives = first :: others := by
  induction others generalizing first with
  | nil => rfl
  | cons second others ih => rw [Choice.ofRuns, Choice.alternatives, ih]

/-- All that may remain does remain for some order of the alternatives. -/
theorem Run.MayLeave.realized {run : Run} (compiles : run.Compiles) {s t : List Char} (leaves : run.MayLeave s t) :
    ∃ run', run.Reordered run' ∧ run'.remainder? s = some t := by
  induction leaves with
  | nil s => exact ⟨.nil, .nil, rfl⟩
  | @piece p rest u v t inside longest later ih =>
    obtain ⟨own, behind⟩ := Run.compiles_piece.mp compiles
    obtain ⟨rest', reordered, found⟩ := ih behind
    have compiles' : (Run.piece p rest').Compiles := Run.compiles_piece.mpr ⟨own, reordered.compiles_iff.mpr behind⟩
    refine ⟨.piece p rest', .piece p reordered, (Run.remainder?_piece compiles').mpr ?_⟩
    refine ⟨u, v, rfl, inside, found, fun u' v' split inside' leads => ?_⟩
    exact longest u' v' split inside' (reordered.matches_iff.mp leads)
  | @group choice a rest s t among later ih =>
    obtain ⟨own, behind⟩ := Run.compiles_group.mp compiles
    have each := choice.compiles_iff.mp own
    obtain ⟨whole, reordered, found⟩ := ih (Run.compiles_append.mpr ⟨each a among, behind⟩)
    obtain ⟨a', rest', first, last, rfl⟩ := reordered.split
    -- the alternative that is taken is put before the others
    obtain ⟨before, after, parts⟩ := List.append_of_mem among
    have alternatives := Choice.alternatives_ofRuns a' (before ++ after)
    have same (l : List Run) : List.Forall₂ Run.Reordered l l :=
      List.forall₂_same.mpr fun b _ => Run.Reordered.refl b
    have aligned : List.Forall₂ Run.Reordered choice.alternatives (before ++ a' :: after) := by
      rw [parts]
      exact List.rel_append (same before) (.cons first (same after))
    have order : (before ++ a' :: after).Perm (Choice.ofRuns a' (before ++ after)).alternatives := by
      rw [alternatives]
      exact List.perm_middle
    have reordered' := Run.Reordered.group aligned order last
    refine ⟨_, reordered', ?_⟩
    rw [Run.remainder?_alternatives _ (reordered'.compiles_iff.mpr compiles), alternatives, List.findSome?_cons, found]

/-! ## Globs -/

/-- Whether two globs differ only in the order of alternatives. -/
def Reordered (glob glob' : String) : Prop :=
  ∃ run run', Reads glob run ∧ Reads glob' run' ∧ run.Reordered run'

/-- The texts that a glob matches, also those of several lines. -/
def words (glob : String) : Language Char :=
  {w | ∃ run, Reads glob run ∧ w ∈ run.words}

/-- Whether a start of a text is matched if each piece takes as much as it can so that what follows still matches,
and each group takes any of its alternatives. -/
def MayMatch (glob subject m : String) : Prop :=
  ∃ run rest, Reads glob run ∧ run.MayLeave subject.toList rest ∧ subject.toList = m.toList ++ rest

/-- Whether a start of a text is the longest that a glob matches. -/
def IsLongest (glob subject m : String) : Prop :=
  m.toList ∈ words glob ∧ m.toList <+: subject.toList ∧
    ∀ w ∈ words glob, w <+: subject.toList → w.length ≤ m.toList.length

section Globs

variable {glob subject m : String} {run : Run}

theorem Reads.accepted_of_match? (reads : Reads glob run) (found : (match? glob subject).isSome) :
    run.regex?.isSome := by
  rw [reads.match?_eq] at found
  cases accepted : run.regex? with
  | none => simp [accepted] at found
  | some r => rfl

/-- An accepted row has an expression for each piece, one after the other. -/
theorem Run.sequence_of_regex? {r : Regex} (found : run.regex? = some r) :
    ∃ rs, run.regexes? = some rs ∧ Regex.sequence rs = r := by
  obtain ⟨compiled, -⟩ := Option.filter_eq_some_iff.mp found
  exact Option.map_eq_some_iff.mp compiled

theorem Run.compiles_of_regex? (accepted : run.regex?.isSome) : run.Compiles := by
  obtain ⟨r, found⟩ := Option.isSome_iff_exists.mp accepted
  obtain ⟨rs, all, -⟩ := Run.sequence_of_regex? found
  exact Option.isSome_iff_exists.mpr ⟨rs, all⟩

theorem Reads.match?_eq_some_iff (reads : Reads glob run) (accepted : run.regex?.isSome) :
    match? glob subject = some m ↔
      ∃ rest, run.remainder? subject.toList = some rest ∧ subject.toList = m.toList ++ rest := by
  obtain ⟨r, found⟩ := Option.isSome_iff_exists.mp accepted
  obtain ⟨rs, all, rfl⟩ := Run.sequence_of_regex? found
  rw [reads.match?_eq, found, Option.bind_some, Regex.find?_eq_some_iff, Run.remainder?_eq all]

theorem Reads.match?_isSome_iff (reads : Reads glob run) :
    (match? glob subject).isSome ↔ run.regex?.isSome ∧ run.Matches subject.toList := by
  rw [reads.match?_eq]
  cases found : run.regex? with
  | none => simp
  | some r =>
    obtain ⟨rs, all, rfl⟩ := Run.sequence_of_regex? found
    rw [Option.bind_some, Regex.find?_isSome_iff, run.language_eq all]
    simp [Run.Matches]

/-- In another order a glob matches just if it did before. -/
theorem Run.Reordered.match?_isSome_iff {run' : Run} (reordered : run.Reordered run') {glob' : String}
    (reads : Reads glob run) (reads' : Reads glob' run') :
    (match? glob' subject).isSome ↔ (match? glob subject).isSome := by
  rw [reads.match?_isSome_iff, reads'.match?_isSome_iff, reordered.regex?_isSome_iff, reordered.matches_iff]

/-- What is matched in another order may be matched. -/
theorem Run.Reordered.mayMatch {run' : Run} (reordered : run.Reordered run') {glob' : String}
    (reads : Reads glob run) (reads' : Reads glob' run') (found : match? glob' subject = some m) :
    MayMatch glob subject m := by
  have accepted := reads'.accepted_of_match? (Option.isSome_iff_exists.mpr ⟨m, found⟩)
  obtain ⟨rest, leaves, split⟩ := (reads'.match?_eq_some_iff accepted).mp found
  have may := Run.mayLeave_of_remainder? (Run.compiles_of_regex? accepted) leaves
  exact ⟨run, rest, reads, reordered.mayLeave may, split⟩

theorem IsLongest.unique {m' : String} (longest : IsLongest glob subject m) (longest' : IsLongest glob subject m') :
    m = m' := by
  obtain ⟨inside, start, most⟩ := longest
  obtain ⟨inside', start', most'⟩ := longest'
  have less := most m'.toList inside' start'
  have more := most' m.toList inside start
  have whole := List.prefix_of_prefix_length_le start start' more
  exact String.toList_inj.mp (whole.eq_of_length (Nat.le_antisymm more less))

theorem Reordered.self {glob' : String} (reordered : Reordered glob glob') : Reordered glob glob := by
  obtain ⟨run, -, reads, -, -⟩ := reordered
  exact ⟨run, run, reads, reads, Run.Reordered.refl run⟩

end Globs

end LinterClient.Glob
