import LinterClient.Proofs.Glob.Language

/-!
The start and the end of a glob.

Characters at the start of a glob that mean themselves are read off the subject first, and what follows them
matches what is left, as if it were the whole glob. What matches the last piece is behind what matches the
pieces before it.
-/

namespace LinterClient.Regex

/-! ## Sequences -/

theorem sequence_cons_cons (r r' : Regex) (rs : List Regex) :
    sequence (r :: r' :: rs) = .seq r (sequence (r' :: rs)) := rfl

theorem rests_sequence_cons (r : Regex) (rs : List Regex) (l : List (List Char)) :
    (sequence (r :: rs)).rests l = (sequence rs).rests (r.rests l) := by
  cases rs <;> rfl

theorem rests_sequence_append (rs rs' : List Regex) (l : List (List Char)) :
    (sequence (rs ++ rs')).rests l = (sequence rs').rests ((sequence rs).rests l) := by
  induction rs generalizing l with
  | nil => rfl
  | cons r rs ih => rw [List.cons_append, rests_sequence_cons, rests_sequence_cons, ih]

theorem rests_nil (r : Regex) : r.rests [] = [] := by
  induction r with
  | group body ih => exact ih
  | seq first rest ihFirst ihRest => rw [rests, ihFirst, ihRest]
  | _ => rfl

/-- Whether an expression is one item of a sequence. -/
def isItem : Regex → Bool
  | .empty | .seq _ _ | .alt _ _ => false
  | .char _ | .anyChar | .set _ _ | .group _ | .star _ => true

/-- How deep the deepest of some expressions nests. -/
def deepest (rs : List Regex) : Nat :=
  rs.foldr (fun r n => max r.depth n) 0

theorem deepest_append (rs rs' : List Regex) : deepest (rs ++ rs') = max (deepest rs) (deepest rs') := by
  induction rs with
  | nil => simp [deepest]
  | cons r rs ih =>
    simp only [deepest, List.cons_append, List.foldr_cons] at ih ⊢
    rw [ih, Nat.max_assoc]

theorem seqDepth_sequence {rs : List Regex} (items : ∀ r ∈ rs, r.isItem = true) :
    (sequence rs).seqDepth = deepest rs := by
  induction rs with
  | nil => rfl
  | cons r rs ih =>
    have later := ih fun r' member => items r' (List.mem_cons_of_mem _ member)
    cases rs with
    | nil =>
      have item := items r List.mem_cons_self
      cases r with
      | empty | seq | alt => cases item
      | _ => simp [sequence, seqDepth, deepest, depth]
    | cons r' rs =>
      rw [sequence_cons_cons, seqDepth, later]
      rfl

theorem anchoredDepth_sequence {rs : List Regex} (items : ∀ r ∈ rs, r.isItem = true) (filled : rs ≠ []) :
    (sequence rs).anchoredDepth = 1 + deepest rs := by
  cases rs with
  | nil => exact absurd rfl filled
  | cons r rs =>
    cases rs with
    | nil =>
      have item := items r List.mem_cons_self
      cases r with
      | empty | seq | alt => cases item
      | _ => simp [sequence, anchoredDepth, deepest]
    | cons r' rs =>
      have later := seqDepth_sequence fun r'' member => items r'' (List.mem_cons_of_mem _ member)
      rw [sequence_cons_cons, anchoredDepth, depth, later]
      rfl

theorem anchoredDepth_front {rs rs' : List Regex} (items : ∀ r ∈ rs ++ rs', r.isItem = true) :
    (sequence rs).anchoredDepth ≤ (sequence (rs ++ rs')).anchoredDepth := by
  by_cases none : rs = []
  · subst none
    exact Nat.zero_le _
  · rw [anchoredDepth_sequence items (by simp [none]), deepest_append,
      anchoredDepth_sequence (fun r member => items r (List.mem_append_left _ member)) none]
    omega

end LinterClient.Regex

namespace LinterClient.Glob

theorem class?_isItem {negated : Bool} {body : List Char} {r : Regex} (found : class? negated body = some r) :
    r.isItem = true := by
  obtain ⟨⟨r', rest⟩, read, rfl⟩ := Option.map_eq_some_iff.mp found
  simp only [Regex.charClass] at read
  obtain ⟨x, -, same⟩ := Option.map_eq_some_iff.mp read
  cases same
  rfl

theorem Piece.regex?_isItem {p : Piece} {r : Regex} (found : p.regex? = some r) : r.isItem = true := by
  cases p with
  | charClass negated body => exact class?_isItem found
  | _ =>
    cases found
    rfl

theorem Run.regexes?_items (run : Run) {rs : List Regex} (found : run.regexes? = some rs) :
    ∀ r ∈ rs, r.isItem = true := by
  cases run with
  | nil =>
    cases found
    simp
  | piece first rest =>
    obtain ⟨r, one, others⟩ := Option.bind_eq_some_iff.mp found
    obtain ⟨rs, later, rfl⟩ := Option.map_eq_some_iff.mp others
    intro r' member
    rcases List.mem_cons.mp member with rfl | member
    · exact Piece.regex?_isItem one
    · exact rest.regexes?_items later r' member
  | group alternatives rest =>
    obtain ⟨r, one, others⟩ := Option.bind_eq_some_iff.mp found
    obtain ⟨rs, later, rfl⟩ := Option.map_eq_some_iff.mp others
    intro r' member
    rcases List.mem_cons.mp member with rfl | member
    · rfl
    · exact rest.regexes?_items later r' member

/-! ## Rows one after the other -/

/-- A row with another one behind it. -/
def Run.append : Run → Run → Run
  | .nil, back => back
  | .piece first rest, back => .piece first (rest.append back)
  | .group alternatives rest, back => .group alternatives (rest.append back)

theorem Run.text_append (front back : Run) : (front.append back).text = front.text ++ back.text := by
  cases front with
  | nil => rfl
  | piece first rest => simp [Run.append, Run.text, rest.text_append back]
  | group alternatives rest => simp [Run.append, Run.text, rest.text_append back]

theorem Run.regexes?_append (front back : Run) :
    (front.append back).regexes? = front.regexes?.bind fun rs => back.regexes?.map (rs ++ ·) := by
  cases front with
  | nil => simp [Run.append, Run.regexes?]
  | piece first rest =>
    rw [Run.append, Run.regexes?, Run.regexes?, rest.regexes?_append back]
    cases first.regex? with
    | none => rfl
    | some r =>
      cases rest.regexes? with
      | none => rfl
      | some rs => cases back.regexes? <;> rfl
  | group alternatives rest =>
    rw [Run.append, Run.regexes?, Run.regexes?, rest.regexes?_append back]
    cases alternatives.regex? with
    | none => rfl
    | some r =>
      cases rest.regexes? with
      | none => rfl
      | some rs => cases back.regexes? <;> rfl

/-- What is read in front of other pieces is read alone as well. -/
theorem Run.Fits.front {inGroup : Bool} {front back : Run} (fits : (front.append back).Fits inGroup) :
    front.Fits inGroup := by
  cases front with
  | nil => trivial
  | piece first rest =>
    have start := fits.1
    rw [Run.text_append] at start
    exact ⟨start.of_append, Run.Fits.front fits.2⟩
  | group alternatives rest => exact ⟨fits.1, Run.Fits.front fits.2⟩

/-! ## The start of a glob -/

/-- Whether a character means itself outside groups. -/
def IsLiteral (c : Char) : Prop :=
  c ≠ '*' ∧ c ≠ '?' ∧ c ≠ '[' ∧ c ≠ '\x7b'
deriving Decidable

def literal (s : List Char) : Run :=
  s.foldr (fun c rest => .piece (.char c) rest) .nil

theorem literal_text (s : List Char) : (literal s).text = s := by
  induction s with
  | nil => rfl
  | cons c s ih =>
    simp only [literal, List.foldr_cons, Run.text, Piece.text] at ih ⊢
    rw [ih]
    rfl

theorem literal_regexes? (s : List Char) : (literal s).regexes? = some (s.map .char) := by
  induction s with
  | nil => rfl
  | cons c s ih =>
    simp only [literal, List.foldr_cons, Run.regexes?, Piece.regex?] at ih ⊢
    rw [ih]
    rfl

theorem literal_append_fits {s : List Char} (literals : ∀ c ∈ s, IsLiteral c) {run : Run}
    (fits : run.Fits false) : ((literal s).append run).Fits false := by
  induction s with
  | nil => exact fits
  | cons c s ih =>
    obtain ⟨star, single, bracket, group⟩ := literals c List.mem_cons_self
    exact ⟨⟨star, single, bracket, group, by simp⟩, ih fun d member => literals d (List.mem_cons_of_mem _ member)⟩

theorem tokens_literal {s : List Char} (literals : ∀ c ∈ s, IsLiteral c) (t : List Char) :
    tokens 0 (s ++ t) = (tokens 0 t).map (s.map .char ++ ·) := by
  induction s with
  | nil => simp
  | cons c s ih =>
    obtain ⟨star, single, bracket, group⟩ := literals c List.mem_cons_self
    have later := ih fun d member => literals d (List.mem_cons_of_mem _ member)
    have first : tokens 0 (c :: (s ++ t)) = (tokens 0 (s ++ t)).map (.char c :: ·) :=
      tokens_piece (p := .char c) ⟨star, single, bracket, group, by simp⟩
    rw [List.cons_append, first, later, Option.map_map]
    rfl

/-- Characters at the start are taken off the subject. -/
theorem rests_literal (s rest : List Char) (rs : List Regex) :
    (Regex.sequence (s.map .char ++ rs)).rests [s ++ rest] = (Regex.sequence rs).rests [rest] := by
  induction s with
  | nil => rfl
  | cons c s ih =>
    have first : (Regex.char c).rests [c :: (s ++ rest)] = [s ++ rest] := by
      simp [Regex.rests, Regex.one]
    rw [List.map_cons, List.cons_append, Regex.rests_sequence_cons, List.cons_append, first, ih]

theorem rests_not_literal {s subject : List Char} (other : ¬ s <+: subject) (rs : List Regex) :
    (Regex.sequence (s.map .char ++ rs)).rests [subject] = [] := by
  induction s generalizing subject with
  | nil => exact absurd List.nil_prefix other
  | cons c s ih =>
    rw [List.map_cons, List.cons_append, Regex.rests_sequence_cons]
    cases subject with
    | nil => exact Regex.rests_nil _
    | cons d subject =>
      by_cases same : d = c
      · subst same
        have first : (Regex.char d).rests [d :: subject] = [subject] := by simp [Regex.rests, Regex.one]
        rw [first]
        exact ih fun start => other ((List.prefix_cons_inj d).mpr start)
      · have first : (Regex.char c).rests [d :: subject] = [] := by simp [Regex.rests, Regex.one, same]
        rw [first]
        exact Regex.rests_nil _

theorem anchoredDepth_literal (s : List Char) {rs : List Regex} (items : ∀ r ∈ rs, r.isItem = true) :
    (Regex.sequence (s.map .char ++ rs)).anchoredDepth ≤ Regex.maxDepth ↔
      (Regex.sequence rs).anchoredDepth ≤ Regex.maxDepth := by
  have flat : Regex.deepest (s.map .char ++ rs) = Regex.deepest rs := by
    induction s with
    | nil => rfl
    | cons c s ih => simpa [Regex.deepest, Regex.depth] using ih
  have all : ∀ r ∈ s.map .char ++ rs, r.isItem = true := by
    intro r member
    rcases List.mem_append.mp member with member | member
    · obtain ⟨c, -, rfl⟩ := List.mem_map.mp member
      rfl
    · exact items r member
  by_cases empty : s.map .char ++ rs = []
  · rw [List.append_eq_nil_iff] at empty
    rw [empty.1, List.nil_append]
  · rw [Regex.anchoredDepth_sequence all empty, flat]
    by_cases none : rs = []
    · subst none
      decide
    · rw [Regex.anchoredDepth_sequence items none]

theorem find?_literal (s rest : String) (rs : List Regex) :
    (Regex.sequence (s.toList.map .char ++ rs)).find? (s ++ rest) =
      ((Regex.sequence rs).find? rest).map (s ++ ·) := by
  have remains : (Regex.sequence (s.toList.map .char ++ rs)).rests [(s ++ rest).toList] =
      (Regex.sequence rs).rests [rest.toList] := by
    rw [String.toList_append, rests_literal]
  cases found : (Regex.sequence rs).rests [rest.toList] with
  | nil =>
    simp only [Regex.find?, remains, found]
    rfl
  | cons t more =>
    have first : ((Regex.sequence rs).rests [rest.toList]).head? = some t := by rw [found]; rfl
    obtain ⟨m, alone⟩ : ∃ m, (Regex.sequence rs).find? rest = some m := by simp [Regex.find?, found]
    obtain ⟨t', first', whole⟩ := Regex.find?_eq_some_iff.mp alone
    cases first.symm.trans first'
    rw [alone]
    apply Regex.find?_eq_some_iff.mpr
    exact ⟨t, by rw [remains, first], by simp [whole]⟩

/-- Characters at the start of a glob match themselves, and what follows them matches what is left. -/
theorem match?_literal {s : String} (literals : ∀ c ∈ s.toList, IsLiteral c) (glob subject : String) :
    (∀ rest, subject = s ++ rest → match? (s ++ glob) subject = (match? glob rest).map (s ++ ·)) ∧
      (¬ s.toList <+: subject.toList → match? (s ++ glob) subject = none) := by
  cases read : tokens 0 glob.toList with
  | none =>
    have whole := tokens_literal literals glob.toList
    rw [read] at whole
    have refused (subject : String) : match? (s ++ glob) subject = none := by
      simp [match?, compile?, source?, whole]
    have alone (rest : String) : match? glob rest = none := by simp [match?, compile?, source?, read]
    exact ⟨fun rest _ => by rw [refused, alone]; rfl, fun _ => refused subject⟩
  | some ts =>
    obtain ⟨run, reads, -⟩ := tokens_eq_some_iff.mp read
    have whole : Reads (s ++ glob) ((literal s.toList).append run) := by
      refine ⟨literal_append_fits literals reads.1, ?_⟩
      rw [Run.text_append, literal_text, reads.2, String.toList_append]
    simp only [whole.match?_eq, reads.match?_eq, Run.regex?, Run.regexes?_append, literal_regexes?,
      Option.bind_some, Option.map_map]
    cases found : run.regexes? with
    | none => exact ⟨fun _ _ => rfl, fun _ => rfl⟩
    | some rs =>
      have depth := anchoredDepth_literal s.toList (run.regexes?_items found)
      by_cases shallow : (Regex.sequence rs).anchoredDepth ≤ Regex.maxDepth
      · have deep := depth.mpr shallow
        simp only [Option.map_some, Function.comp_apply, Option.filter, shallow, deep, decide_true, if_true,
          Option.bind_some]
        refine ⟨?_, fun other => ?_⟩
        · rintro rest rfl
          exact find?_literal s rest rs
        · simp only [Regex.find?, rests_not_literal other]
      · have deep := mt depth.mp shallow
        simp [Option.filter, shallow, deep]

/-! ## The shortest words of a row -/

theorem Piece.exists_short (p : Piece) {inGroup : Bool} {next : List Char} (fits : p.Fits inGroup next)
    {m : List Char} (inside : m ∈ p.language) (line : '\n' ∉ m) :
    ∃ w ∈ p.language, '\n' ∉ w ∧ w.length ≤ p.text.length ∧ (w = p.text → ∀ c ∈ p.text, IsLiteral c) := by
  cases p with
  | segments => exact ⟨[], Language.nil_mem_kstar _, by simp, by simp, by simp [Piece.text]⟩
  | anything => exact ⟨[], trivial, by simp, by simp, by simp [Piece.text]⟩
  | star => exact ⟨[], List.not_mem_nil, by simp, by simp, by simp [Piece.text]⟩
  | single =>
    have other : 'a' ≠ '/' := by decide
    exact ⟨['a'], ⟨'a', other, rfl⟩, by decide, by simp [Piece.text], by simp [Piece.text]⟩
  | charClass negated body =>
    refine ⟨m, inside, line, ?_⟩
    obtain ⟨r, found, inside⟩ := inside
    simp only [class?, Regex.charClass] at found
    obtain ⟨⟨r', rest⟩, read, rfl⟩ := Option.map_eq_some_iff.mp found
    obtain ⟨x, -, same⟩ := Option.map_eq_some_iff.mp read
    cases same
    obtain ⟨c, -, rfl⟩ := inside
    constructor
    · simp [Piece.text]
    · intro whole
      have sizes := congrArg List.length whole
      simp [Piece.text] at sizes
  | char c =>
    obtain ⟨star, single, bracket, group, -⟩ := fits
    refine ⟨m, inside, line, ?_⟩
    rw [inside]
    refine ⟨Nat.le_refl _, fun _ d member => ?_⟩
    rw [List.mem_singleton.mp member]
    exact ⟨star, single, bracket, group⟩

mutual

/-- A row that matches a text of one line matches one that is no longer than the row's own text, and that is
the row's own text only if all characters of the row mean themselves. -/
theorem Run.exists_short (run : Run) {inGroup : Bool} (fits : run.Fits inGroup) {m : List Char}
    (inside : m ∈ run.language) (line : '\n' ∉ m) :
    ∃ w ∈ run.language, '\n' ∉ w ∧ w.length ≤ run.text.length ∧
      (w = run.text → ∀ c ∈ run.text, IsLiteral c) := by
  cases run with
  | nil => exact ⟨m, inside, line, by rw [inside]; simp, by simp [Run.text]⟩
  | piece first rest =>
    obtain ⟨u, front, v, back, rfl⟩ := Language.mem_mul.mp inside
    rw [List.mem_append, not_or] at line
    obtain ⟨u', inFirst, lineFirst, shortFirst, literalFirst⟩ := first.exists_short fits.1 front line.1
    obtain ⟨v', inRest, lineRest, shortRest, literalRest⟩ := rest.exists_short fits.2 back line.2
    refine ⟨u' ++ v', Language.append_mem_mul inFirst inRest, by simp [lineFirst, lineRest], ?_, fun whole => ?_⟩
    · rw [Run.text, List.length_append, List.length_append]
      omega
    · have sizes := congrArg List.length whole
      rw [Run.text, List.length_append, List.length_append] at sizes
      obtain ⟨same, same'⟩ := List.append_inj whole (by omega)
      intro c member
      rcases List.mem_append.mp member with member | member
      · exact literalFirst same c member
      · exact literalRest same' c member
  | group alternatives rest =>
    obtain ⟨u, front, v, back, rfl⟩ := Language.mem_mul.mp inside
    rw [List.mem_append, not_or] at line
    obtain ⟨u', inFirst, lineFirst, shortFirst⟩ := alternatives.exists_short fits.1 front line.1
    obtain ⟨v', inRest, lineRest, shortRest, -⟩ := rest.exists_short fits.2 back line.2
    have shorter : (u' ++ v').length < (Run.group alternatives rest).text.length := by
      simp only [Run.text, List.length_append, List.length_cons]
      omega
    refine ⟨u' ++ v', Language.append_mem_mul inFirst inRest, by simp [lineFirst, lineRest],
      Nat.le_of_lt shorter, fun whole => ?_⟩
    rw [whole] at shorter
    exact absurd shorter (Nat.lt_irrefl _)

theorem Choice.exists_short (choice : Choice) (fits : choice.Fits) {m : List Char}
    (inside : m ∈ choice.language) (line : '\n' ∉ m) :
    ∃ w ∈ choice.language, '\n' ∉ w ∧ w.length ≤ choice.text.length := by
  cases choice with
  | last run =>
    obtain ⟨w, found, lineFound, short, -⟩ := run.exists_short fits inside line
    exact ⟨w, found, lineFound, short⟩
  | more first rest =>
    rcases inside with inside | inside
    · obtain ⟨w, found, lineFound, short, -⟩ := first.exists_short fits.1 inside line
      refine ⟨w, Or.inl found, lineFound, ?_⟩
      simp only [Choice.text, List.length_append]
      omega
    · obtain ⟨w, found, lineFound, short⟩ := rest.exists_short fits.2 inside line
      refine ⟨w, Or.inr found, lineFound, ?_⟩
      simp only [Choice.text, List.length_append, List.length_cons]
      omega

end

/-- A glob that matches on one line matches a text that is no longer than the glob, and that is the glob only if
all characters of the glob mean themselves. -/
theorem match?_exists_short {glob file m : String} (found : match? glob file = some m)
    (line : '\n' ∉ file.toList) :
    ∃ w : String, (match? glob w).isSome ∧ '\n' ∉ w.toList ∧ w.toList.length ≤ glob.toList.length ∧
      (w = glob → ∀ c ∈ glob.toList, IsLiteral c) := by
  obtain ⟨⟨text, r⟩, accepted, matched⟩ := Option.bind_eq_some_iff.mp found
  obtain ⟨run, reads, compiled⟩ := reads_of_compile? accepted
  have agree := run.agree_regex compiled
  obtain ⟨inside, start⟩ := Regex.mem_language_of_find? matched
  have front : '\n' ∉ m.toList := fun member => line (start.subset member)
  obtain ⟨w, inside, wordLine, short, literal⟩ := run.exists_short reads.1 ((agree _ front).mp inside) front
  rw [reads.2] at short literal
  refine ⟨String.ofList w, ?_, by simpa using wordLine, by simpa using short, fun same => literal ?_⟩
  · rw [match?, accepted, Option.bind_some, Regex.find?_isSome_iff, String.toList_ofList]
    exact ⟨w, (agree w wordLine).mpr inside, List.prefix_rfl⟩
  · rw [← same, String.toList_ofList]

/-! ## The end of a glob -/

theorem Run.text_eq_nil {run : Run} (empty : run.text = []) : run = .nil := by
  cases run with
  | nil => rfl
  | piece first rest =>
    have long := first.text_pos
    have sizes := congrArg List.length empty
    simp only [Run.text, List.length_append, List.length_nil] at sizes
    omega
  | group alternatives rest => cases empty

/-- A row whose text ends with a slash ends with that slash or with any number of segments. -/
theorem Run.ends_slash (run : Run) (ends : run.text.getLast? = some '/') :
    ∃ (front : Run) (p : Piece), run = front.append (.piece p .nil) ∧ (p = .char '/' ∨ p = .segments) := by
  cases run with
  | nil => cases ends
  | piece first rest =>
    by_cases last : rest.text = []
    · have none := Run.text_eq_nil last
      subst none
      refine ⟨.nil, first, rfl, ?_⟩
      cases first with
      | segments => exact Or.inr rfl
      | charClass negated body =>
        rw [Run.text, last, List.append_nil, Piece.text, ← List.cons_append, List.getLast?_concat] at ends
        cases ends
      | char c => simpa [Run.text, Piece.text] using ends
      | _ => cases ends
    · rw [Run.text, List.getLast?_append_of_ne_nil _ last] at ends
      obtain ⟨front, p, rfl, kind⟩ := rest.ends_slash ends
      exact ⟨.piece first front, p, rfl, kind⟩
  | group alternatives rest =>
    rw [Run.text, ← List.cons_append, List.getLast?_append_of_ne_nil _ (by simp)] at ends
    by_cases last : rest.text = []
    · rw [last] at ends
      cases ends
    · rw [List.getLast?_cons, List.getLast?_eq_some_getLast last] at ends
      obtain ⟨front, p, rfl, kind⟩ := rest.ends_slash ((List.getLast?_eq_some_getLast last).trans ends)
      exact ⟨.group alternatives front, p, rfl, kind⟩

/-- If a row has an expression, so has its front. -/
theorem Run.regex?_append {front back : Run} {r : Regex} (found : (front.append back).regex? = some r) :
    ∃ rs rs', back.regexes? = some rs' ∧ front.regex? = some (Regex.sequence rs) ∧
      r = Regex.sequence (rs ++ rs') := by
  obtain ⟨compiled, shallow⟩ := Option.filter_eq_some_iff.mp found
  obtain ⟨all, whole, rfl⟩ := Option.map_eq_some_iff.mp compiled
  have items := Run.regexes?_items _ whole
  rw [Run.regexes?_append] at whole
  obtain ⟨rs, one, others⟩ := Option.bind_eq_some_iff.mp whole
  obtain ⟨rs', two, rfl⟩ := Option.map_eq_some_iff.mp others
  refine ⟨rs, rs', two, ?_, rfl⟩
  have less := Regex.anchoredDepth_front items
  have bound := of_decide_eq_true shallow
  rw [Run.regex?, one, Option.map_some, Option.filter_some, if_pos (by simpa using Nat.le_trans less bound)]

theorem find?_slash {rs : List Regex} {s d : String}
    (found : (Regex.sequence (rs ++ [.char '/'])).find? s = some d) : d.toList.getLast? = some '/' := by
  obtain ⟨rest, first, whole⟩ := Regex.find?_eq_some_iff.mp found
  have member := List.mem_of_mem_head? first
  rw [Regex.rests_sequence_append] at member
  obtain ⟨t, before, w, slash, rfl⟩ :=
    (Regex.mem_flatMap_one (fun w => (Regex.mem_char '/' w).trans (by simp)) _ rest).mp member
  obtain ⟨u, -, split⟩ := (Regex.mem_rests_single _ _ _).mp before
  rw [whole, ← List.append_assoc] at split
  have same := List.append_cancel_right split
  have word : w = ['/'] := slash
  rw [same, word, List.getLast?_concat]

def oneSegment : Regex :=
  .group (.seq (.star notSlash) (.char '/'))

theorem mem_rests_oneSegment {s t : List Char} :
    t ∈ oneSegment.rests [s] ↔ ∃ u, '/' ∉ u ∧ s = u ++ '/' :: t := by
  have words : oneSegment.language = segment * {['/']} := by
    simp only [oneSegment, Regex.language, ← language_star_notSlash]
  apply (Regex.mem_rests_single _ s t).trans
  rw [words]
  constructor
  · rintro ⟨w, inside, rfl⟩
    obtain ⟨u, clean, _, rfl, rfl⟩ := Language.mem_mul.mp inside
    exact ⟨u, clean, by simp⟩
  · rintro ⟨u, clean, rfl⟩
    exact ⟨u ++ ['/'], Language.append_mem_mul clean rfl, by simp⟩

/-- As many segments as there are end at the last slash. -/
theorem repeated_oneSegment (fuel : Nat) (s : List Char) (enough : s.length ≤ fuel) :
    ∃ u t, (Regex.repeated (fun t => oneSegment.rests [t]) fuel s).head? = some t ∧ s = u ++ t ∧
      '/' ∉ t ∧ (u = [] ∨ u.getLast? = some '/') := by
  induction fuel generalizing s with
  | zero =>
    have empty : s = [] := List.length_eq_zero_iff.mp (Nat.le_zero.mp enough)
    subst empty
    exact ⟨[], [], rfl, rfl, List.not_mem_nil, Or.inl rfl⟩
  | succ fuel ih =>
    cases found : (oneSegment.rests [s]).filter (·.length < s.length) with
    | nil =>
      have clean : '/' ∉ s := by
        intro slash
        obtain ⟨u, v, rfl, clean⟩ := List.eq_append_cons_of_mem slash
        have member : v ∈ (oneSegment.rests [u ++ '/' :: v]).filter (·.length < (u ++ '/' :: v).length) := by
          rw [List.mem_filter]
          refine ⟨mem_rests_oneSegment.mpr ⟨u, clean, rfl⟩, ?_⟩
          simp only [List.length_append, List.length_cons, decide_eq_true_eq]
          omega
        rw [found] at member
        cases member
      refine ⟨[], s, ?_, rfl, clean, Or.inl rfl⟩
      rw [Regex.repeated, found]
      rfl
    | cons first more =>
      obtain ⟨member, shorter⟩ := List.mem_filter.mp (found ▸ List.mem_cons_self)
      obtain ⟨u, -, rfl⟩ := mem_rests_oneSegment.mp member
      have shorter := of_decide_eq_true shorter
      obtain ⟨u', t, later, rfl, last, kind⟩ := ih first (by omega)
      obtain ⟨others, all⟩ := List.head?_eq_some_iff.mp later
      refine ⟨u ++ '/' :: u', t, ?_, by simp, last, Or.inr ?_⟩
      · rw [Regex.repeated, found, List.flatMap_cons, all]
        rfl
      · rcases kind with rfl | ends
        · exact List.getLast?_concat
        · rw [List.getLast?_append_of_ne_nil _ (by simp), List.getLast?_cons, ends]
          rfl

/-- A match that ends with segments goes on from a match of what is in front of them to the last slash. -/
theorem find?_segments {rs : List Regex} {s d : String}
    (found : (Regex.sequence (rs ++ [.star oneSegment])).find? s = some d) :
    ∃ (m : String) (u t : List Char), (Regex.sequence rs).find? s = some m ∧ s.toList = m.toList ++ (u ++ t) ∧
      d.toList = m.toList ++ u ∧ '/' ∉ t ∧ (u = [] ∨ u.getLast? = some '/') := by
  obtain ⟨rest, first, whole⟩ := Regex.find?_eq_some_iff.mp found
  rw [Regex.rests_sequence_append] at first
  cases before : (Regex.sequence rs).rests [s.toList] with
  | nil =>
    rw [before] at first
    cases first
  | cons v more =>
    obtain ⟨m, matched⟩ : ∃ m, (Regex.sequence rs).find? s = some m := by simp [Regex.find?, before]
    obtain ⟨v', same, split⟩ := Regex.find?_eq_some_iff.mp matched
    rw [before] at same
    cases same
    obtain ⟨u, t, head, rfl, clean, kind⟩ := repeated_oneSegment v.length v (Nat.le_refl _)
    obtain ⟨others, all⟩ := List.head?_eq_some_iff.mp head
    have last : t = rest := by
      rw [before, Regex.sequence, Regex.rests, List.flatMap_cons, all] at first
      exact Option.some.inj first
    subst last
    refine ⟨m, u, t, matched, split, ?_, clean, kind⟩
    rw [split, ← List.append_assoc] at whole
    exact (List.append_cancel_right whole).symm

end LinterClient.Glob
