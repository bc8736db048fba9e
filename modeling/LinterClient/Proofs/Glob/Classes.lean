import LinterClient.Glob

/-!
The classes of a glob in the regular expression that it becomes.

A class ends where it ends in the glob, unless nothing stands in it: then its bracket stands for itself, and
as no other bracket closes the class, the expression is refused.
-/

namespace LinterClient.Glob

open Regex (SetOperator CharSet classChar classItem classBody)

/-- The text behind the bracket that opens a class. -/
def classText (negated : Bool) (body : List Char) : List Char :=
  (if negated then ['^'] else []) ++ body.flatMap escapeInClass ++ [']']

/-- The expression of a class. -/
def class? (negated : Bool) (body : List Char) : Option Regex :=
  (Regex.charClass (classText negated body)).map (·.1)

/-- What stands in a class, up to the bracket that closes it and a text behind that. -/
def inside (body more : List Char) : List Char :=
  body.flatMap escapeInClass ++ ']' :: more

/-! ## Sources of tokens -/

@[simp] theorem source_segments :
    Token.segments.source = ['(', '?', ':', '[', '^', '/', ']', '*', '/', ')', '*'] := rfl

@[simp] theorem source_anything : Token.anything.source = ['.', '*'] := rfl

@[simp] theorem source_star : Token.star.source = ['[', '^', '/', ']', '*'] := rfl

@[simp] theorem source_single : Token.single.source = ['[', '^', '/', ']'] := rfl

@[simp] theorem source_groupStart : Token.groupStart.source = ['(', '?', ':'] := rfl

@[simp] theorem source_groupEnd : Token.groupEnd.source = [')'] := rfl

@[simp] theorem source_separator : Token.separator.source = ['|'] := rfl

@[simp] theorem source_charClass (negated : Bool) (body : List Char) :
    (Token.charClass negated body).source = '[' :: classText negated body := rfl

@[simp] theorem source_char (c : Char) : (Token.char c).source = escape c := rfl

/-! ## Inside a class -/

theorem inside_cons (c : Char) (body more : List Char) :
    inside (c :: body) more = escapeInClass c ++ inside body more := by
  simp [inside]

theorem inside_plain {c : Char} (backslash : c ≠ '\\') (bracket : c ≠ '[') (body more : List Char) :
    inside (c :: body) more = c :: inside body more := by
  rw [inside_cons, escapeInClass, if_neg (by simp [backslash, bracket])]
  rfl

/-- What stands in a class starts with its first character, or with a backslash before that. -/
theorem inside_head (c : Char) (body more : List Char) :
    ∃ d rest, inside (c :: body) more = d :: rest ∧ (d = c ∨ d = '\\') := by
  rw [inside_cons, escapeInClass]
  split
  · exact ⟨_, _, rfl, Or.inr rfl⟩
  · exact ⟨_, _, rfl, Or.inl rfl⟩

theorem length_lt_inside (body more : List Char) : body.length < (inside body more).length := by
  induction body with
  | nil => simp [inside]
  | cons c body ih =>
    have long : 0 < (escapeInClass c).length := by
      rw [escapeInClass]
      split <;> simp
    rw [inside_cons, List.length_append, List.length_cons]
    omega

theorem classChar_inside (c : Char) (body more : List Char) :
    classChar (inside (c :: body) more) = some (c, inside body more) := by
  rw [inside_cons, escapeInClass]
  split
  · rename_i special
    rcases special with rfl | rfl <;> rfl
  · rename_i plain
    rw [not_or] at plain
    rw [List.cons_append, List.nil_append, classChar]
    · simp [plain.1]
    · simp [plain.1]
    · simp [plain.2]

theorem classItem_single {s rest : List Char} {c : Char} (first : classChar s = some (c, rest))
    (plain : rest.head? ≠ some '-') : classItem s = some ((c, c), rest) := by
  simp only [classItem, first]
  split
  · exact absurd rfl plain
  · rfl

theorem classItem_mark {s rest : List Char} {c d : Char} (first : classChar s = some (c, '-' :: d :: rest))
    (mark : d = ']' ∨ d = '-') : classItem s = some ((c, c), '-' :: d :: rest) := by
  simp only [classItem, first, if_pos mark]

theorem classItem_range {s rest after : List Char} {c d e : Char}
    (first : classChar s = some (c, '-' :: d :: rest)) (range : ¬ (d = ']' ∨ d = '-'))
    (second : classChar (d :: rest) = some (e, after)) :
    classItem s = if c ≤ e then some ((c, e), after) else none := by
  simp only [classItem, first, if_neg range, second]

/-- An item of a class does not depend on what stands behind the class. -/
theorem classItem_inside (c : Char) {body : List Char} (whole : ']' ∉ body) :
    (∃ item rest, rest.length ≤ body.length ∧ ']' ∉ rest ∧
      ∀ more, classItem (inside (c :: body) more) = some (item, inside rest more)) ∨
    ∀ more, classItem (inside (c :: body) more) = none := by
  have first (more : List Char) := classChar_inside c body more
  cases body with
  | nil =>
    refine Or.inl ⟨(c, c), [], by simp, by simp, fun more => ?_⟩
    exact classItem_single (first more) (by simp [inside])
  | cons d body =>
    by_cases hyphen : d = '-'
    · subst hyphen
      cases body with
      | nil =>
        refine Or.inl ⟨(c, c), ['-'], by simp, by simp, fun more => ?_⟩
        exact classItem_mark (first more) (Or.inl rfl)
      | cons e body =>
        by_cases double : e = '-'
        · subst double
          refine Or.inl ⟨(c, c), '-' :: '-' :: body, by simp, whole, fun more => ?_⟩
          exact classItem_mark (first more) (Or.inr rfl)
        · have range (more : List Char) : classItem (inside (c :: '-' :: e :: body) more) =
              if c ≤ e then some ((c, e), inside body more) else none := by
            obtain ⟨x, rest, start, either⟩ := inside_head e body more
            have other : ¬ (x = ']' ∨ x = '-') := by
              rcases either with rfl | rfl
              · grind
              · decide
            have known := first more
            rw [inside_plain (c := '-') (by decide) (by decide), start] at known
            exact classItem_range known other (start ▸ classChar_inside e body more)
          by_cases ordered : c ≤ e
          · refine Or.inl ⟨(c, e), body, by simp; omega, by simp_all, fun more => ?_⟩
            rw [range, if_pos ordered]
          · refine Or.inr fun more => ?_
            rw [range, if_neg ordered]
    · refine Or.inl ⟨(c, c), d :: body, Nat.le_refl _, whole, fun more => ?_⟩
      apply classItem_single (first more)
      obtain ⟨x, rest, start, either⟩ := inside_head d body more
      rw [start]
      rcases either with rfl | rfl
      · simpa using hyphen
      · simp

theorem classBody_item {fuel : Nat} {left : Option (SetOperator × CharSet)} {items : List (Char × Char)}
    {c : Char} {rest : List Char} (opens : c ≠ ']')
    (plain : rest.head? = some c → c ≠ '&' ∧ c ≠ '-' ∧ c ≠ '~') :
    classBody (fuel + 1) left items (c :: rest) = match classItem (c :: rest) with
      | none => none
      | some (item, after) => classBody fuel left (items ++ [item]) after := by
  rw [classBody]
  all_goals grind

/-- What is read in a class after its first character or operator. -/
theorem classBody_cases (c : Char) {body : List Char} (whole : ']' ∉ c :: body) :
    (∃ op rest, body = c :: rest ∧ ∀ fuel left items more,
      classBody (fuel + 1) left items (inside (c :: body) more) =
        classBody fuel (some (op, Regex.combine left items)) [] (inside rest more)) ∨
    ∀ fuel left items more, classBody (fuel + 1) left items (inside (c :: body) more) =
      match classItem (inside (c :: body) more) with
      | none => none
      | some (item, after) => classBody fuel left (items ++ [item]) after := by
  by_cases double : body.head? = some c ∧ (c = '&' ∨ c = '-' ∨ c = '~')
  · left
    obtain ⟨same, operator⟩ := double
    obtain ⟨rest, rfl⟩ := List.head?_eq_some_iff.mp same
    rcases operator with rfl | rfl | rfl
    · exact ⟨.intersection, rest, rfl, fun _ _ _ _ => rfl⟩
    · exact ⟨.difference, rest, rfl, fun _ _ _ _ => rfl⟩
    · exact ⟨.symmetricDifference, rest, rfl, fun _ _ _ _ => rfl⟩
  · right
    intro fuel left items more
    have other : c ≠ ']' := fun same => whole (by simp [same])
    by_cases escaped : c = '\\' ∨ c = '['
    · have start : inside (c :: body) more = '\\' :: c :: inside body more := by
        rw [inside_cons, escapeInClass, if_pos escaped]
        rfl
      rw [start]
      exact classBody_item (by decide) (by simp)
    · rw [not_or] at escaped
      rw [inside_plain escaped.1 escaped.2]
      apply classBody_item other
      intro first
      cases body with
      | nil => exact absurd (by simpa [inside] using first) (Ne.symm other)
      | cons d body =>
        obtain ⟨x, rest, start, either⟩ := inside_head d body more
        rw [start] at first
        grind

/-- What a class holds does not depend on what stands behind it. -/
theorem classBody_inside (left : Option (SetOperator × CharSet)) (items : List (Char × Char))
    {body : List Char} (whole : ']' ∉ body) :
    (∃ chars, ∀ fuel more, body.length < fuel →
      classBody fuel left items (inside body more) = some (chars, more)) ∨
    ∀ fuel more, classBody fuel left items (inside body more) = none := by
  induction h : body.length using Nat.strongRecOn generalizing left items body with
  | ind size ih =>
  subst h
  cases body with
  | nil =>
    left
    refine ⟨Regex.combine left items, fun fuel more enough => ?_⟩
    obtain ⟨fuel, rfl⟩ := Nat.exists_eq_succ_of_ne_zero (Nat.ne_zero_of_lt enough)
    rfl
  | cons c body =>
    rcases classBody_cases c whole with ⟨op, rest, rfl, reads⟩ | reads
    · have shorter : rest.length < (c :: c :: rest).length := by
        simp only [List.length_cons]
        omega
      rcases ih _ shorter (some (op, Regex.combine left items)) [] (by simp_all) rfl with ⟨chars, found⟩ | refused
      · refine Or.inl ⟨chars, fun fuel more enough => ?_⟩
        obtain ⟨fuel, rfl⟩ := Nat.exists_eq_succ_of_ne_zero (Nat.ne_zero_of_lt enough)
        rw [reads]
        exact found fuel more (by simp at enough; omega)
      · refine Or.inr fun fuel more => ?_
        cases fuel with
        | zero => rfl
        | succ fuel => rw [reads, refused]
    · rcases classItem_inside c (fun member => whole (List.mem_cons_of_mem _ member)) with
        ⟨item, rest, shorter, kept, first⟩ | refused
      · rcases ih rest.length (by simp; omega) left (items ++ [item]) kept rfl with ⟨chars, found⟩ | refused
        · refine Or.inl ⟨chars, fun fuel more enough => ?_⟩
          obtain ⟨fuel, rfl⟩ := Nat.exists_eq_succ_of_ne_zero (Nat.ne_zero_of_lt enough)
          rw [reads, first]
          exact found fuel more (by simp at enough; omega)
        · refine Or.inr fun fuel more => ?_
          cases fuel with
          | zero => rfl
          | succ fuel => rw [reads, first]; exact refused fuel more
      · refine Or.inr fun fuel more => ?_
        cases fuel with
        | zero => rfl
        | succ fuel => rw [reads, refused]

/-! ## A class without characters -/

/-- A text in which no bracket closes a class before another one opens. -/
inductive StaysOpen : List Char → Prop where
  | nil : StaysOpen []
  | bracket (rest : List Char) : StaysOpen ('[' :: rest)
  | escaped {c : Char} {rest : List Char} : Regex.isMeta c = true → StaysOpen rest →
      StaysOpen ('\\' :: c :: rest)
  | plain {c : Char} {rest : List Char} : c ∉ ['\\', '[', ']', '-', '&', '~'] → StaysOpen rest →
      StaysOpen (c :: rest)

theorem StaysOpen.head_ne {s : List Char} (stays : StaysOpen s) : s.head? ≠ some '-' := by
  cases stays with
  | nil => simp
  | bracket => simp
  | escaped => simp
  | plain other => grind

theorem StaysOpen.refused {s : List Char} (stays : StaysOpen s) (fuel : Nat)
    (left : Option (SetOperator × CharSet)) (items : List (Char × Char)) :
    classBody fuel left items s = none := by
  induction stays generalizing fuel left items with
  | nil => cases fuel <;> rfl
  | bracket rest => cases fuel <;> rfl
  | @escaped c rest special stays ih =>
    cases fuel with
    | zero => rfl
    | succ fuel =>
      have first : classChar ('\\' :: c :: rest) = some (c, rest) := by simp [classChar, special]
      rw [classBody_item (by decide) (by simp), classItem_single first stays.head_ne]
      exact ih fuel left _
  | @plain c rest other stays ih =>
    cases fuel with
    | zero => rfl
    | succ fuel =>
      simp only [List.mem_cons, List.not_mem_nil, or_false, not_or] at other
      obtain ⟨backslash, bracket, close, hyphen, ampersand, tilde⟩ := other
      have first : classChar (c :: rest) = some (c, rest) := by
        rw [classChar]
        · simp [backslash]
        · simp [backslash]
        · simp [bracket]
      rw [classBody_item close fun _ => ⟨ampersand, hyphen, tilde⟩, classItem_single first stays.head_ne]
      exact ih fuel left _

theorem staysOpen_source (t : Token) {rest : List Char} (stays : StaysOpen rest) :
    StaysOpen (t.source ++ rest) := by
  cases t with
  | segments =>
    rw [source_segments]
    apply StaysOpen.plain (by decide)
    apply StaysOpen.plain (by decide)
    apply StaysOpen.plain (by decide)
    exact StaysOpen.bracket _
  | anything =>
    rw [source_anything]
    apply StaysOpen.plain (by decide)
    apply StaysOpen.plain (by decide)
    exact stays
  | star => exact StaysOpen.bracket _
  | single => exact StaysOpen.bracket _
  | groupStart =>
    rw [source_groupStart]
    apply StaysOpen.plain (by decide)
    apply StaysOpen.plain (by decide)
    apply StaysOpen.plain (by decide)
    exact stays
  | groupEnd => exact StaysOpen.plain (by decide) stays
  | separator => exact StaysOpen.plain (by decide) stays
  | charClass negated body => exact StaysOpen.bracket _
  | char c =>
    rw [source_char, escape]
    split
    · rename_i special
      exact StaysOpen.escaped special stays
    · rename_i plain
      apply StaysOpen.plain _ stays
      intro member
      simp only [List.mem_cons, List.not_mem_nil, or_false] at member
      rcases member with rfl | rfl | rfl | rfl | rfl | rfl <;> exact plain rfl

theorem staysOpen_sources (ts : List Token) : StaysOpen (ts.flatMap Token.source) := by
  induction ts with
  | nil => exact StaysOpen.nil
  | cons t ts ih => exact staysOpen_source t ih

/-! ## A class as a whole -/

theorem takeWhile_inside (body more : List Char) :
    (inside body more).takeWhile (· = '-') = body.takeWhile (· = '-') ∧
      (inside body more).dropWhile (· = '-') = inside (body.dropWhile (· = '-')) more := by
  induction body with
  | nil => simp [inside]
  | cons c body ih =>
    by_cases hyphen : c = '-'
    · subst hyphen
      rw [inside_plain (by decide) (by decide)]
      simpa using ih
    · obtain ⟨d, rest, start, either⟩ := inside_head c body more
      have other : d ≠ '-' := by
        rcases either with rfl | rfl
        · exact hyphen
        · decide
      rw [start]
      simp [hyphen, other, start]

/-- A class behind the mark that negates it. -/
def classFrom (negated : Bool) (s : List Char) : Option (Regex × List Char) :=
  let start := (s.takeWhile (· = '-')).map fun c => (c, c)
  let behind := s.dropWhile (· = '-')
  let (items, behind) := match start, behind with
    | [], ']' :: rest => ([(']', ']')], rest)
    | _, _ => (start, behind)
  (classBody (behind.length + 1) none items behind).map fun (chars, rest) => (.set negated chars, rest)

theorem charClass_eq (negated : Bool) {s : List Char} (plain : negated = false → s.head? ≠ some '^') :
    Regex.charClass ((if negated then ['^'] else []) ++ s) = classFrom negated s := by
  cases negated with
  | true => rfl
  | false =>
    cases s with
    | nil => rfl
    | cons c s =>
      have other : c ≠ '^' := by simpa using plain rfl
      simp only [Bool.false_eq_true, if_false, List.nil_append, Regex.charClass]
      split
      · rename_i rest same
        exact absurd (List.cons.inj same).1 other
      · rfl

theorem classFrom_nil (negated : Bool) (more : List Char) :
    classFrom negated (inside [] more) =
      (classBody (more.length + 1) none [(']', ']')] more).map fun (chars, rest) => (.set negated chars, rest) :=
  rfl

theorem classFrom_inside (negated : Bool) {body : List Char} (whole : ']' ∉ body) (filled : body ≠ [])
    (more : List Char) :
    classFrom negated (inside body more) =
      (classBody ((inside (body.dropWhile (· = '-')) more).length + 1) none
        ((body.takeWhile (· = '-')).map fun c => (c, c)) (inside (body.dropWhile (· = '-')) more)).map
          fun (chars, rest) => (.set negated chars, rest) := by
  obtain ⟨start, behind⟩ := takeWhile_inside body more
  simp only [classFrom, start, behind]
  split
  · rename_i rest empty close
    -- without a hyphen at its start the class starts with another of its characters
    cases body with
    | nil => exact absurd rfl filled
    | cons c body =>
      have other : c ≠ '-' := by
        rintro rfl
        simp at empty
      obtain ⟨d, tail, first, either⟩ := inside_head c body more
      rw [List.dropWhile_cons_of_neg (by simpa using other), first] at close
      rcases either with rfl | rfl
      · exact absurd (by simp [(List.cons.inj close).1]) whole
      · cases close
  · rfl

/-- A class reads as the same expression whatever stands behind it, if something stands in it. -/
theorem classFrom_append (negated : Bool) {body : List Char} (whole : ']' ∉ body) (filled : body ≠ [])
    (more : List Char) :
    classFrom negated (inside body more) = (classFrom negated (inside body [])).map fun x => (x.1, more) := by
  have kept : ']' ∉ body.dropWhile (· = '-') := fun member => whole ((List.dropWhile_sublist _).subset member)
  rw [classFrom_inside negated whole filled, classFrom_inside negated whole filled]
  have enough (more : List Char) := Nat.lt_succ_of_lt (length_lt_inside (body.dropWhile (· = '-')) more)
  rcases classBody_inside none ((body.takeWhile (· = '-')).map fun c => (c, c)) kept with ⟨chars, found⟩ | refused
  · rw [found _ _ (enough more), found _ _ (enough [])]
    rfl
  · rw [refused, refused]
    rfl

/-- The mark of negation and the characters of a class, as the expression reads them. -/
theorem classText_marked (negated : Bool) {body : List Char} (whole : ']' ∉ body) :
    ∃ (negated' : Bool) (body' : List Char), ']' ∉ body' ∧ (negated' = false → body'.head? ≠ some '^') ∧
      ∀ more, classText negated body ++ more =
        (if negated' then ['^'] else []) ++ inside body' more := by
  cases negated with
  | true => exact ⟨true, body, whole, by simp, fun more => by simp [classText, inside]⟩
  | false =>
    by_cases marked : body.head? = some '^'
    · obtain ⟨rest, rfl⟩ := List.head?_eq_some_iff.mp marked
      refine ⟨true, rest, fun member => whole (List.mem_cons_of_mem _ member), by simp, fun more => ?_⟩
      simp [classText, inside, escapeInClass]
    · exact ⟨false, body, whole, fun _ => marked, fun more => by simp [classText, inside]⟩

/-- A class reads as the same expression whatever tokens follow it. -/
theorem charClass_source (negated : Bool) {body : List Char} (whole : ']' ∉ body) (ts : List Token) :
    Regex.charClass (classText negated body ++ ts.flatMap Token.source) =
      (class? negated body).map (·, ts.flatMap Token.source) := by
  obtain ⟨negated', body', whole', plain, same⟩ := classText_marked negated whole
  have first (more : List Char) : negated' = false → (inside body' more).head? ≠ some '^' := by
    intro unmarked
    cases body' with
    | nil => simp [inside]
    | cons c body' =>
      obtain ⟨d, rest, start, either⟩ := inside_head c body' more
      rw [start]
      rcases either with rfl | rfl
      · simpa using plain unmarked
      · simp
  have alone := same []
  rw [List.append_nil] at alone
  rw [same, class?, alone, charClass_eq negated' (first _), charClass_eq negated' (first _)]
  by_cases empty : body' = []
  · subst empty
    have closed := (staysOpen_sources ts).refused
    rw [classFrom_nil, classFrom_nil, closed, StaysOpen.nil.refused]
    rfl
  · rw [classFrom_append negated' whole' empty, Option.map_map]
    rfl

end LinterClient.Glob
