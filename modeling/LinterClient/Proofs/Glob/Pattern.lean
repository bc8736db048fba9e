import LinterClient.Glob

/-!
Globs as trees.

A glob is a row of pieces and of groups, whose alternatives are rows again. Each row has one text, and
`Fits` says when that text is read as this row: `*` is not read as one when another star follows it.
Reading a text into tokens succeeds iff it is the text of a row that fits, and gives the tokens of that row.
-/

namespace LinterClient.Glob

/-- A piece of a glob other than a group. -/
inductive Piece where
  | segments
  | anything
  | star
  | single
  | charClass (negated : Bool) (body : List Char)
  | char (c : Char)

mutual

/-- Pieces and groups in a row. -/
inductive Run where
  | nil
  | piece (first : Piece) (rest : Run)
  | group (alternatives : Choice) (rest : Run)

/-- The alternatives of a group, one at least. -/
inductive Choice where
  | last (run : Run)
  | more (first : Run) (rest : Choice)

end

def Piece.token : Piece → Token
  | .segments => .segments
  | .anything => .anything
  | .star => .star
  | .single => .single
  | .charClass negated body => .charClass negated body
  | .char c => .char c

def Piece.text : Piece → List Char
  | .segments => ['*', '*', '/']
  | .anything => ['*', '*']
  | .star => ['*']
  | .single => ['?']
  | .charClass negated body => '[' :: ((if negated then ['!'] else []) ++ body ++ [']'])
  | .char c => [c]

theorem Piece.text_pos (p : Piece) : 0 < p.text.length := by
  cases p <;> simp [Piece.text]

/-- Whether a piece's text is read as that piece when another text follows it. -/
def Piece.Fits (inGroup : Bool) (next : List Char) : Piece → Prop
  | .segments | .single => True
  | .anything => next.head? ≠ some '/'
  | .star => next.head? ≠ some '*'
  | .charClass negated body => ']' ∉ body ∧ (negated = false → body.head? ≠ some '!')
  | .char c => c ≠ '*' ∧ c ≠ '?' ∧ c ≠ '[' ∧ c ≠ '\x7b' ∧ (inGroup = true → c ≠ ',' ∧ c ≠ '\x7d')

mutual

def Run.tokens : Run → List Token
  | .nil => []
  | .piece first rest => first.token :: rest.tokens
  | .group alternatives rest => .groupStart :: (alternatives.tokens ++ .groupEnd :: rest.tokens)

def Choice.tokens : Choice → List Token
  | .last run => run.tokens
  | .more first rest => first.tokens ++ .separator :: rest.tokens

end

mutual

def Run.text : Run → List Char
  | .nil => []
  | .piece first rest => first.text ++ rest.text
  | .group alternatives rest => '\x7b' :: (alternatives.text ++ '\x7d' :: rest.text)

def Choice.text : Choice → List Char
  | .last run => run.text
  | .more first rest => first.text ++ ',' :: rest.text

end

mutual

/-- Whether a row's text is read as that row, outside groups or inside one. -/
def Run.Fits (inGroup : Bool) : Run → Prop
  | .nil => True
  | .piece first rest => first.Fits inGroup rest.text ∧ rest.Fits inGroup
  | .group alternatives rest => alternatives.Fits ∧ rest.Fits inGroup

def Choice.Fits : Choice → Prop
  | .last run => run.Fits true
  | .more first rest => first.Fits true ∧ rest.Fits

end

/-- A glob is read as a row. -/
def Reads (glob : String) (run : Run) : Prop :=
  run.Fits false ∧ run.text = glob.toList

/-! ## From rows to tokens -/

theorem splitAt_first {c : Char} {front : List Char} (outside : c ∉ front) (s : List Char) :
    (front ++ c :: s).takeWhile (· ≠ c) = front ∧ (front ++ c :: s).dropWhile (· ≠ c) = c :: s := by
  have inside : ∀ d ∈ front, decide (d ≠ c) = true := by
    intro d member
    have other : d ≠ c := fun same => outside (same ▸ member)
    simpa using other
  rw [List.takeWhile_append_of_pos inside, List.dropWhile_append_of_pos inside]
  simp

theorem tokens_piece {groups : Nat} {p : Piece} {s : List Char} (fits : p.Fits (decide (groups ≠ 0)) s) :
    tokens groups (p.text ++ s) = (tokens groups s).map (p.token :: ·) := by
  cases p with
  | segments =>
    simp only [Piece.text, List.cons_append, List.nil_append]
    rw [tokens]
    rfl
  | anything =>
    simp only [Piece.text, List.cons_append, List.nil_append]
    rw [tokens]
    · rfl
    · rintro rest rfl
      exact fits rfl
  | star =>
    simp only [Piece.text, List.cons_append, List.nil_append]
    rw [tokens]
    · rfl
    · rintro rest rfl
      exact fits rfl
    · rintro rest rfl
      exact fits rfl
  | single =>
    simp only [Piece.text, List.cons_append, List.nil_append]
    rw [tokens]
    rfl
  | charClass negated body =>
    obtain ⟨whole, plain⟩ := fits
    have start : (((if negated then ['!'] else []) ++ body ++ [']'] ++ s).head? = some '!') ↔
        negated = true := by
      cases negated with
      | true => simp
      | false =>
        have other := plain rfl
        cases body with
        | nil => simp
        | cons c body => simpa using other
    have inner : (if ((if negated then ['!'] else []) ++ body ++ [']'] ++ s).head? = some '!' then
        ((if negated then ['!'] else []) ++ body ++ [']'] ++ s).drop 1
        else (if negated then ['!'] else []) ++ body ++ [']'] ++ s) = body ++ ']' :: s := by
      cases negated with
      | true => simp
      | false =>
        rw [if_neg fun same => Bool.false_ne_true (start.mp same)]
        simp
    obtain ⟨front, behind⟩ := splitAt_first whole s
    simp only [Piece.text, List.cons_append]
    rw [tokens]
    split
    · rename_i open_
      rw [inner, behind] at open_
      cases open_
    · rename_i head after closed
      rw [inner, behind] at closed
      cases closed
      rw [inner, front]
      have same : decide (((if negated then ['!'] else []) ++ body ++ [']'] ++ s).head? = some '!') =
          negated := by
        simp only [start]
        simp
      rw [same]
      rfl
  | char c =>
    obtain ⟨notStar, notSingle, notClass, notGroup, inside⟩ := fits
    simp only [Piece.text, List.cons_append, List.nil_append]
    by_cases comma : c = ','
    · subst comma
      by_cases outside : groups = 0
      · rw [tokens, if_pos outside]
        rfl
      · exact absurd rfl (inside (by simpa using outside)).1
    · by_cases brace : c = '\x7d'
      · subst brace
        by_cases outside : groups = 0
        · rw [tokens, if_pos outside, outside]
          rfl
        · exact absurd rfl (inside (by simpa using outside)).2
      · rw [tokens]
        · rfl
        all_goals simp_all

theorem Piece.Fits.append {inGroup : Bool} {p : Piece} {text : List Char} (fits : p.Fits inGroup text)
    {s : List Char} (stops : s = [] ∨ s.head? = some ',' ∨ s.head? = some '\x7d') :
    p.Fits inGroup (text ++ s) := by
  have kept (c : Char) (other : text.head? ≠ some c) (comma : c ≠ ',') (brace : c ≠ '\x7d') :
      (text ++ s).head? ≠ some c := by
    cases text with
    | nil =>
      rcases stops with rfl | first | first
      · simp
      · simpa [first] using Ne.symm comma
      · simpa [first] using Ne.symm brace
    | cons d text => simpa using other
  cases p with
  | anything => exact kept '/' fits (by decide) (by decide)
  | star => exact kept '*' fits (by decide) (by decide)
  | _ => exact fits

mutual

theorem Run.tokens_text (run : Run) {groups : Nat} (fits : run.Fits (decide (groups ≠ 0)))
    {s : List Char} (stops : s = [] ∨ s.head? = some ',' ∨ s.head? = some '\x7d') :
    Glob.tokens groups (run.text ++ s) = (Glob.tokens groups s).map (run.tokens ++ ·) := by
  cases run with
  | nil => simp [Run.text, Run.tokens]
  | piece first rest =>
    simp only [Run.text, Run.tokens, List.append_assoc]
    rw [tokens_piece (fits.1.append stops), rest.tokens_text fits.2 stops, Option.map_map]
    rfl
  | group alternatives rest =>
    simp only [Run.text, Run.tokens, List.cons_append, List.append_assoc]
    rw [Glob.tokens, alternatives.tokens_text fits.1, rest.tokens_text fits.2 stops, Option.map_map,
      Option.map_map]
    simp [Function.comp_def]

theorem Choice.tokens_text (choice : Choice) {groups : Nat} (fits : choice.Fits) (s : List Char) :
    Glob.tokens (groups + 1) (choice.text ++ '\x7d' :: s) =
      (Glob.tokens groups s).map (choice.tokens ++ .groupEnd :: ·) := by
  cases choice with
  | last run =>
    simp only [Choice.text, Choice.tokens]
    rw [run.tokens_text (by simpa [Choice.Fits] using fits) (Or.inr (Or.inr rfl)), Glob.tokens, if_neg (by omega),
      Nat.add_sub_cancel, Option.map_map]
    rfl
  | more first rest =>
    simp only [Choice.text, Choice.tokens, List.append_assoc, List.cons_append]
    rw [first.tokens_text (by simpa using fits.1) (Or.inr (Or.inl rfl)), Glob.tokens, if_neg (by omega),
      rest.tokens_text fits.2, Option.map_map, Option.map_map]
    rfl

end

theorem Reads.tokens_eq {glob : String} {run : Run} (reads : Reads glob run) :
    tokens 0 glob.toList = some run.tokens := by
  have clear : run.Fits (decide (0 ≠ 0)) := reads.1
  have whole := run.tokens_text clear (s := []) (Or.inl rfl)
  rw [List.append_nil, reads.2] at whole
  rw [whole, tokens]
  simp

/-! ## From tokens to rows -/

/-- A text is empty, starts with a piece that is read, opens a group, ends an alternative, or starts with a
bracket that is not closed. -/
theorem text_cases (inGroup : Bool) (s : List Char) :
    s = [] ∨ (∃ (p : Piece) (rest : List Char), p.Fits inGroup rest ∧ s = p.text ++ rest) ∨
      (∃ rest, s = '\x7b' :: rest) ∨ (inGroup = true ∧ ∃ rest, s = ',' :: rest ∨ s = '\x7d' :: rest) ∨
      ∃ rest, s = '[' :: rest ∧ ']' ∉ rest := by
  have piece (p : Piece) (rest : List Char) (fits : p.Fits inGroup rest) :
      p.text ++ rest = [] ∨ (∃ (q : Piece) (more : List Char), q.Fits inGroup more ∧
        p.text ++ rest = q.text ++ more) ∨
      (∃ more, p.text ++ rest = '\x7b' :: more) ∨
      (inGroup = true ∧ ∃ more, p.text ++ rest = ',' :: more ∨ p.text ++ rest = '\x7d' :: more) ∨
      ∃ more, p.text ++ rest = '[' :: more ∧ ']' ∉ more := Or.inr (Or.inl ⟨p, rest, fits, rfl⟩)
  rcases s with _ | ⟨c, rest⟩
  · exact Or.inl rfl
  by_cases star : c = '*'
  · subst star
    rcases rest with _ | ⟨d, rest⟩
    · exact piece .star [] (by simp [Piece.Fits])
    by_cases second : d = '*'
    · subst second
      rcases rest with _ | ⟨e, rest⟩
      · exact piece .anything [] (by simp [Piece.Fits])
      by_cases slash : e = '/'
      · subst slash
        exact piece .segments rest trivial
      · exact piece .anything (e :: rest) (by simpa [Piece.Fits] using slash)
    · exact piece .star (d :: rest) (by simpa [Piece.Fits] using second)
  by_cases single : c = '?'
  · subst single
    exact piece .single rest trivial
  by_cases open_ : c = '['
  · subst open_
    by_cases closed : ']' ∈ rest
    · obtain ⟨body, behind, split, whole⟩ := List.eq_append_cons_of_mem closed
      subst split
      by_cases negated : body.head? = some '!'
      · obtain ⟨inner, rfl⟩ := List.head?_eq_some_iff.mp negated
        have kept : ']' ∉ inner := fun member => whole (List.mem_cons_of_mem _ member)
        simpa [Piece.text] using piece (.charClass true inner) behind ⟨kept, by simp⟩
      · simpa [Piece.text] using piece (.charClass false body) behind ⟨whole, fun _ => negated⟩
    · exact Or.inr (Or.inr (Or.inr (Or.inr ⟨rest, rfl, closed⟩)))
  by_cases group : c = '\x7b'
  · subst group
    exact Or.inr (Or.inr (Or.inl ⟨rest, rfl⟩))
  by_cases ends : inGroup = true ∧ (c = ',' ∨ c = '\x7d')
  · obtain ⟨within, rfl | rfl⟩ := ends
    · exact Or.inr (Or.inr (Or.inr (Or.inl ⟨within, rest, Or.inl rfl⟩)))
    · exact Or.inr (Or.inr (Or.inr (Or.inl ⟨within, rest, Or.inr rfl⟩)))
  · rw [not_and, not_or] at ends
    exact piece (.char c) rest ⟨star, single, open_, group, ends⟩

theorem tokens_open (groups : Nat) {rest : List Char} (open_ : ']' ∉ rest) :
    tokens groups ('[' :: rest) = none := by
  have whole : ∀ inner : List Char, ']' ∉ inner → inner.dropWhile (· ≠ ']') = [] := by
    intro inner outside
    have kept : ∀ c ∈ inner, decide (c ≠ ']') = true := by
      intro c member
      have other : c ≠ ']' := fun same => outside (same ▸ member)
      simpa using other
    have nothing : (inner ++ []).dropWhile (· ≠ ']') = [] := List.dropWhile_append_of_pos kept
    rwa [List.append_nil] at nothing
  rw [tokens]
  split
  · rfl
  · rename_i head after closed
    rw [whole] at closed
    · cases closed
    · split
      · exact fun member => open_ (List.mem_of_mem_drop member)
      · exact open_

/-- A text that closes some groups one after the other, with its tokens. -/
def Closes : Nat → List Char → List Token → Prop
  | 0, s, ts => ∃ run : Run, run.Fits false ∧ s = run.text ∧ ts = run.tokens
  | groups + 1, s, ts => ∃ (choice : Choice) (rest : List Char) (more : List Token), choice.Fits ∧
      s = choice.text ++ '\x7d' :: rest ∧ ts = choice.tokens ++ .groupEnd :: more ∧ Closes groups rest more

/-- The choice with something put before its first alternative. -/
def Choice.prepend (add : Run → Run) : Choice → Choice
  | .last run => .last (add run)
  | .more first rest => .more (add first) rest

theorem Piece.Fits.of_append {inGroup : Bool} {p : Piece} {text s : List Char}
    (fits : p.Fits inGroup (text ++ s)) : p.Fits inGroup text := by
  cases text with
  | nil => cases p <;> simp_all [Piece.Fits]
  | cons c text => cases p <;> exact fits

/-- What is put before a row is put before a text that closes groups. -/
theorem Closes.prepend {groups : Nat} {s : List Char} {ts : List Token} (closes : Closes groups s ts)
    (add : Run → Run) (text : List Char) (ts' : List Token)
    (texts : ∀ run, (add run).text = text ++ run.text) (tokens : ∀ run, (add run).tokens = ts' ++ run.tokens)
    (fits : ∀ run more, s = run.text ++ more → run.Fits (decide (groups ≠ 0)) →
      (add run).Fits (decide (groups ≠ 0))) :
    Closes groups (text ++ s) (ts' ++ ts) := by
  cases groups with
  | zero =>
    obtain ⟨run, clear, rfl, rfl⟩ := closes
    exact ⟨add run, fits run [] (by simp) clear, (texts run).symm, (tokens run).symm⟩
  | succ groups =>
    obtain ⟨choice, rest, more, clear, rfl, rfl, closes⟩ := closes
    refine ⟨choice.prepend add, rest, more, ?_, ?_, ?_, closes⟩
    · cases choice with
      | last run => exact fits run _ rfl clear
      | more first others =>
        refine ⟨fits first (',' :: others.text ++ '\x7d' :: rest) (by simp [Choice.text]) clear.1, clear.2⟩
    · cases choice <;> simp [Choice.prepend, Choice.text, texts]
    · cases choice <;> simp [Choice.prepend, Choice.tokens, tokens]

theorem Closes.piece {groups : Nat} {s : List Char} {ts : List Token} (closes : Closes groups s ts)
    {p : Piece} (fits : p.Fits (decide (groups ≠ 0)) s) :
    Closes groups (p.text ++ s) (p.token :: ts) := by
  apply closes.prepend (.piece p) p.text [p.token] (fun _ => rfl) (fun _ => rfl)
  rintro run more rfl clear
  exact ⟨fits.of_append, clear⟩

theorem Closes.group {groups : Nat} {s : List Char} {ts : List Token} (closes : Closes (groups + 1) s ts) :
    Closes groups ('\x7b' :: s) (.groupStart :: ts) := by
  obtain ⟨choice, rest, more, clear, rfl, rfl, closes⟩ := closes
  have added := closes.prepend (.group choice) ('\x7b' :: (choice.text ++ ['\x7d']))
    (.groupStart :: (choice.tokens ++ [.groupEnd])) (fun _ => by simp [Run.text])
    (fun _ => by simp [Run.tokens]) (fun _ _ _ kept => ⟨clear, kept⟩)
  simpa using added

theorem Closes.separator {groups : Nat} {s : List Char} {ts : List Token}
    (closes : Closes (groups + 1) s ts) : Closes (groups + 1) (',' :: s) (.separator :: ts) := by
  obtain ⟨choice, rest, more, clear, rfl, rfl, closes⟩ := closes
  exact ⟨.more .nil choice, rest, more, ⟨trivial, clear⟩, rfl, rfl, closes⟩

theorem Closes.groupEnd {groups : Nat} {s : List Char} {ts : List Token} (closes : Closes groups s ts) :
    Closes (groups + 1) ('\x7d' :: s) (.groupEnd :: ts) :=
  ⟨.last .nil, s, ts, trivial, rfl, rfl, closes⟩

/-- What is read inside some groups closes them all. -/
theorem closes_of_tokens {groups : Nat} {s : List Char} {ts : List Token}
    (read : tokens groups s = some ts) : Closes groups s ts := by
  induction h : s.length using Nat.strongRecOn generalizing groups s ts with
  | ind size ih =>
  subst h
  rcases text_cases (decide (groups ≠ 0)) s with
    rfl | ⟨p, rest, fits, rfl⟩ | ⟨rest, rfl⟩ | ⟨within, rest, rfl | rfl⟩ | ⟨rest, rfl, open_⟩
  · rw [tokens] at read
    split at read
    · rename_i outside
      subst outside
      exact ⟨.nil, trivial, rfl, (Option.some.inj read).symm⟩
    · cases read
  · rw [tokens_piece fits] at read
    obtain ⟨more, later, rfl⟩ := Option.map_eq_some_iff.mp read
    have long := p.text_pos
    have shorter : rest.length < (p.text ++ rest).length := by
      rw [List.length_append]
      omega
    exact (ih _ shorter later rfl).piece fits
  · rw [tokens] at read
    obtain ⟨more, later, rfl⟩ := Option.map_eq_some_iff.mp read
    exact (ih _ (by simp) later rfl).group
  · have within : groups ≠ 0 := by simpa using within
    obtain ⟨groups, rfl⟩ := Nat.exists_eq_succ_of_ne_zero within
    rw [tokens, if_neg within] at read
    obtain ⟨more, later, rfl⟩ := Option.map_eq_some_iff.mp read
    exact (ih _ (by simp) later rfl).separator
  · have within : groups ≠ 0 := by simpa using within
    obtain ⟨groups, rfl⟩ := Nat.exists_eq_succ_of_ne_zero within
    rw [tokens, if_neg within] at read
    obtain ⟨more, later, rfl⟩ := Option.map_eq_some_iff.mp read
    exact (ih _ (by simp) later rfl).groupEnd
  · rw [tokens_open groups open_] at read
    cases read

/-- How many groups are open behind a text; outside groups a closing brace closes nothing. -/
def openBehind (groups : Nat) (s : List Char) : Nat :=
  s.foldl (fun n c => if c = '\x7b' then n + 1 else if c = '\x7d' then n - 1 else n) groups

theorem openBehind_piece {groups : Nat} {p : Piece} {s : List Char} (fits : p.Fits (decide (groups ≠ 0)) s)
    (plain : '[' ∉ p.text) : openBehind groups (p.text ++ s) = openBehind groups s := by
  cases p with
  | charClass negated body => exact absurd (by simp [Piece.text]) plain
  | char c =>
    obtain ⟨-, -, -, group, inside⟩ := fits
    by_cases brace : c = '\x7d'
    · subst brace
      by_cases outside : groups = 0
      · subst outside
        rfl
      · exact absurd rfl (inside (by simpa using outside)).2
    · simp [Piece.text, openBehind, group, brace]
  | _ => rfl

/-- Without classes, only groups that are left open make a text invalid. -/
theorem tokens_isSome_iff {groups : Nat} {s : List Char} (plain : '[' ∉ s) :
    (tokens groups s).isSome ↔ openBehind groups s = 0 := by
  induction h : s.length using Nat.strongRecOn generalizing groups s with
  | ind size ih =>
  subst h
  rcases text_cases (decide (groups ≠ 0)) s with
    rfl | ⟨p, rest, fits, rfl⟩ | ⟨rest, rfl⟩ | ⟨within, rest, rfl | rfl⟩ | ⟨rest, rfl, -⟩
  · rw [tokens]
    split
    · rename_i outside
      simp [openBehind, outside]
    · rename_i within
      simp [openBehind, within]
  · have long := p.text_pos
    rw [List.mem_append, not_or] at plain
    rw [tokens_piece fits, Option.isSome_map, openBehind_piece fits plain.1]
    exact ih rest.length (by rw [List.length_append]; omega) plain.2 rfl
  · rw [tokens, Option.isSome_map]
    exact ih rest.length (by simp) (fun member => plain (List.mem_cons_of_mem _ member)) rfl
  · rw [tokens, Option.isSome_map]
    exact ih rest.length (by simp) (fun member => plain (List.mem_cons_of_mem _ member)) rfl
  · have within : groups ≠ 0 := by simpa using within
    rw [tokens, if_neg within, Option.isSome_map]
    exact ih rest.length (by simp) (fun member => plain (List.mem_cons_of_mem _ member)) rfl
  · exact absurd List.mem_cons_self plain

/-- A text is read into tokens iff it is the text of a row, and the tokens are those of the row. -/
theorem tokens_eq_some_iff {glob : String} {ts : List Token} :
    tokens 0 glob.toList = some ts ↔ ∃ run, Reads glob run ∧ run.tokens = ts := by
  constructor
  · intro read
    obtain ⟨run, fits, text, rfl⟩ := closes_of_tokens read
    exact ⟨run, ⟨fits, text.symm⟩, rfl⟩
  · rintro ⟨run, reads, rfl⟩
    exact reads.tokens_eq

end LinterClient.Glob
