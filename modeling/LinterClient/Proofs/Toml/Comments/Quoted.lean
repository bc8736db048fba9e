import LinterClient.Proofs.Toml.Comments

/-!
Quoted texts have no comments in them, whether they were read or are written.
-/

namespace LinterClient.Toml

/-! ## The places in a quoted text -/

namespace Place

/-- In a text on one line, at its start or further on. -/
def InLine (mark : Char) (p : Place) : Prop := p = .opened mark ∨ p = .line mark

variable {mark c : Char} {p : Place}

theorem InLine.ended (inside : InLine mark p) : p.ended = 0 := by
  rcases inside with rfl | rfl <;> rfl

theorem InLine.next_eq (inside : InLine mark p) (other : c ≠ mark) : p.next c = inLine mark c := by
  rcases inside with rfl | rfl
  · rw [next, if_neg other]
  · rfl

theorem closed_doubled (mark : Char) (quote : mark = '"' ∨ mark = '\'') : Closed (.doubled mark) := by
  refine ⟨rfl, fun c other => ?_⟩
  rw [next, if_neg]
  rintro rfl
  rcases quote with rfl | rfl
  · exact other.1 rfl
  · exact other.2 rfl

theorem closed_outside : Closed .outside := ⟨rfl, fun _ _ => rfl⟩

theorem closed_lines {k : Nat} (mark : Char) (quote : mark = '"' ∨ mark = '\'') (enough : 3 ≤ k) :
    Closed (.lines mark k) := by
  refine ⟨rfl, fun c other => ?_⟩
  rw [next, if_neg, if_pos enough]
  rintro rfl
  rcases quote with rfl | rfl
  · exact other.1 rfl
  · exact other.2 rfl

theorem InLine.closes (inside : InLine mark p) (quote : mark = '"' ∨ mark = '\'') :
    (p.next mark).Closed := by
  rcases inside with rfl | rfl
  · rw [next, if_pos rfl]
    exact closed_doubled mark quote
  · rw [next, inLine, if_pos rfl]
    exact closed_outside

theorem ne_return (quote : mark = '"' ∨ mark = '\'') : mark ≠ '\r' := by
  rcases quote with rfl | rfl <;> decide

end Place

open Place

variable {mark c : Char} {p : Place} {s rest : List Char}

/-- The mark that ends a text on one line. -/
theorem settles_close (inside : InLine mark p) (quote : mark = '"' ∨ mark = '\'') : Settles p [mark] 0 :=
  (reads_one inside.ended (ne_return quote)).closes (inside.closes quote)

theorem reads_inLine (inside : InLine mark p) (other : c ≠ mark) (visible : c ≠ '\r') :
    Reads p [c] (inLine mark c) 0 := by
  rw [← inside.next_eq other]
  exact reads_one inside.ended visible

theorem inLine_plain (other : c ≠ mark) (plain : c ≠ '\\' ∨ mark = '\'') : inLine mark c = .line mark := by
  rw [inLine, if_neg other, if_neg]
  rintro ⟨rfl, rfl⟩
  simp at plain

/-- A character of a text on one line that is no mark and starts no escape. -/
theorem reads_inLine_plain (inside : InLine mark p) (other : c ≠ mark) (visible : c ≠ '\r')
    (plain : c ≠ '\\' ∨ mark = '\'') : Reads p [c] (.line mark) 0 := by
  rw [← inLine_plain other plain]
  exact reads_inLine inside other visible

theorem reads_inLine_all (inside : InLine mark p)
    (plain : ∀ c ∈ s, c ≠ mark ∧ c ≠ '\r' ∧ (c ≠ '\\' ∨ mark = '\'')) :
    ∃ q, InLine mark q ∧ Reads p s q 0 := by
  induction s generalizing p with
  | nil => exact ⟨p, inside, .nil p⟩
  | cons c s ih =>
    obtain ⟨other, visible, unescaped⟩ := plain c List.mem_cons_self
    obtain ⟨q, within, reads⟩ := ih (.inr rfl) fun c member => plain c (List.mem_cons_of_mem _ member)
    exact ⟨q, within, (reads_inLine_plain inside other visible unescaped).before reads⟩

/-- A backslash in a text with escapes. -/
theorem reads_backslash (inside : InLine '"' p) : Reads p ['\\'] (.escaped false) 0 :=
  reads_inLine inside (by decide) (by decide)

/-! ## Reading -/

namespace Quoted

/-- Where a reader is after an escape. -/
def resumed (several : Bool) : Place := if several then .lines '"' 0 else .line '"'

theorem ended_resumed (several : Bool) : (resumed several).ended = 0 := by
  cases several <;> rfl

theorem next_resumed (several : Bool) {c : Char} (plain : c ≠ '"' ∧ c ≠ '\\') :
    (resumed several).next c = resumed several := by
  cases several <;> simp [resumed, next, inLine, plain.1, plain.2]

theorem codePoint?_reads (several : Bool) {count : Nat} {e : Char}
    (read : codePoint? count s = some (e, rest)) :
    ∃ raw, s = raw ++ rest ∧ Reads (resumed several) raw (resumed several) 0 := by
  simp only [codePoint?, Option.ite_none_right_eq_some, Option.some.injEq, Prod.mk.injEq] at read
  obtain ⟨⟨digits, -⟩, -, rfl⟩ := read
  have all : ((s.take count).filterMap hexDigit?).length = (s.take count).length := by
    have some_ := List.length_filterMap_le hexDigit? (s.take count)
    have most := List.length_take_le count s
    omega
  refine ⟨s.take count, (List.take_append_drop count s).symm, reads_stay (ended_resumed _) ?_⟩
  intro c member _
  have digit := List.filterMap_length_eq_length.mp all c member
  refine next_resumed _ ⟨?_, ?_⟩ <;> rintro rfl <;> simp [hexDigit?] at digit

theorem escape?_reads (several : Bool) {e : Char} (read : escape? s = some (e, rest)) :
    ∃ raw, s = raw ++ rest ∧ Reads (.escaped several) raw (resumed several) 0 := by
  have one (c : Char) (visible : c ≠ '\r') : Reads (.escaped several) [c] (resumed several) 0 :=
    reads_one rfl visible
  rw [escape?.eq_def] at read
  split at read
  case h_12 => cases read
  case h_9 | h_10 | h_11 =>
    obtain ⟨raw, rfl, reads⟩ := codePoint?_reads several read
    exact ⟨_ :: raw, rfl, (one _ (by decide)).before reads⟩
  all_goals
    cases read
    exact ⟨[_], rfl, one _ (by decide)⟩

theorem isControl_return : isControl '\r' = true := by decide

/-- The rest of a basic text on one line. -/
theorem basic_settles {fuel : Nat} {seen : List Char} {v : String} (inside : InLine '"' p)
    (read : basic fuel seen s = some (v, rest)) : ∃ raw, s = raw ++ rest ∧ Settles p raw 0 := by
  induction fuel generalizing seen s p with
  | zero => cases read
  | succ fuel ih =>
    cases s with
    | nil => cases read
    | cons c s =>
      simp only [basic, Option.bind_eq_bind] at read
      split at read
      · rename_i mark
        cases read
        exact ⟨[c], rfl, mark ▸ settles_close inside (.inl rfl)⟩
      · rename_i other
        split at read
        · rename_i backslash
          obtain ⟨⟨e, after⟩, escape, more⟩ := Option.bind_eq_some_iff.mp read
          obtain ⟨raw, rfl, reads⟩ := escape?_reads false escape
          obtain ⟨content, rfl, settles⟩ := ih (.inr rfl) more
          refine ⟨c :: (raw ++ content), by simp, ?_⟩
          rw [backslash]
          exact (reads_backslash inside).before_settles (reads.before_settles settles)
        · rename_i plain
          split at read
          · cases read
          · rename_i printed
            obtain ⟨content, rfl, settles⟩ := ih (.inr rfl) read
            have visible : c ≠ '\r' := by
              rintro rfl
              exact printed isControl_return
            exact ⟨c :: content, rfl,
              (reads_inLine_plain inside other visible (.inl plain)).before_settles settles⟩

/-- The rest of a literal text on one line. -/
theorem literal_settles {v : String} (inside : InLine '\'' p) (read : literal s = some (v, rest)) :
    ∃ raw, s = raw ++ rest ∧ Settles p raw 0 := by
  simp only [literal] at read
  split at read
  · cases read
  · rename_i c after found
    split at read
    · cases read
    · rename_i printed
      cases read
      have close : c = '\'' := by
        have stopped := List.head?_dropWhile_not (· ≠ '\'') s
        rw [found] at stopped
        simpa using stopped
      obtain ⟨q, within, reads⟩ := reads_inLine_all (s := s.takeWhile (· ≠ '\'')) inside fun c member => by
        have other : c ≠ '\'' := by simpa using List.all_eq_true.mp List.all_takeWhile c member
        refine ⟨other, ?_, .inr rfl⟩
        rintro rfl
        exact printed (List.any_eq_true.mpr ⟨_, member, isControl_return⟩)
      refine ⟨s.takeWhile (· ≠ '\'') ++ ['\''], ?_, reads.before_settles (settles_close within (.inr rfl))⟩
      have whole := List.takeWhile_append_dropWhile (p := (· ≠ '\'')) (l := s)
      rw [found, close] at whole
      rw [List.append_assoc, List.singleton_append, whole]

theorem readLine?_settles {v : String} (read : readLine? s = some (v, rest)) :
    ∃ raw, s = raw ++ rest ∧ Settles .outside raw 0 := by
  rw [readLine?.eq_def] at read
  split at read
  · obtain ⟨raw, rfl, settles⟩ := basic_settles (.inl rfl) read
    exact ⟨_ :: raw, rfl, (reads_one rfl (by decide)).before_settles settles⟩
  · obtain ⟨raw, rfl, settles⟩ := literal_settles (.inl rfl) read
    exact ⟨_ :: raw, rfl, (reads_one rfl (by decide)).before_settles settles⟩
  · cases read

/-! ### Several lines -/

section Lines

variable {k : Nat}

theorem reads_lines_mark (quote : mark = '"' ∨ mark = '\'') (few : k < 4) :
    Reads (.lines mark k) [mark] (.lines mark (k + 1)) 0 := by
  have step := reads_one (p := .lines mark k) rfl (ne_return quote)
  rwa [next, if_pos rfl, if_neg (by omega)] at step

theorem reads_lines_plain (other : c ≠ mark) (few : k < 3) (visible : c ≠ '\r')
    (plain : c ≠ '\\' ∨ mark = '\'') : Reads (.lines mark k) [c] (.lines mark 0) 0 := by
  have step := reads_one (p := .lines mark k) rfl visible
  rw [next, if_neg other, if_neg (by omega), if_neg] at step
  · exact step
  · rintro ⟨rfl, rfl⟩
    simp at plain

theorem reads_lines_backslash (few : k < 3) : Reads (.lines '"' k) ['\\'] (.escaped true) 0 := by
  have step := reads_one (p := .lines '"' k) (c := '\\') rfl (by decide)
  rwa [next, if_neg (by decide), if_neg (by omega), if_pos (by decide)] at step

theorem reads_lines_break (quote : mark = '"' ∨ mark = '\'') (few : k < 3) :
    Reads (.lines mark k) ['\r', '\n'] (.lines mark 0) 0 := by
  have break_ : Reads (.lines mark k) ['\n'] (.lines mark 0) 0 := by
    refine reads_lines_plain ?_ few (by decide) (.inl (by decide))
    rcases quote with rfl | rfl <;> decide
  intro rest
  rw [List.cons_append, scan, if_pos rfl]
  exact break_ rest

theorem reads_lines_marks (quote : mark = '"' ∨ mark = '\'') {count : Nat} (few : k + count ≤ 4) :
    Reads (.lines mark k) (List.replicate count mark) (.lines mark (k + count)) 0 := by
  induction count generalizing k with
  | zero => exact .nil _
  | succ count ih =>
    have more := ih (k := k + 1) (by omega)
    rw [Nat.add_right_comm] at more
    exact (reads_lines_mark quote (by omega)).before more

/-- Three to five marks end a text. -/
theorem settles_marks (quote : mark = '"' ∨ mark = '\'') {count : Nat} (enough : 3 ≤ k + count)
    (few : k + count ≤ 5) (start : k < 3) : Settles (.lines mark k) (List.replicate count mark) 0 := by
  by_cases all : k + count = 5
  · obtain ⟨count, rfl⟩ : ∃ n, count = n + 1 := ⟨count - 1, by omega⟩
    rw [List.replicate_succ']
    refine (reads_lines_marks quote (by omega)).before_settles ?_
    have step := reads_one (p := .lines mark (k + count)) (c := mark) rfl (ne_return quote)
    rw [next, if_pos rfl, if_pos (by omega)] at step
    exact step.settles
  · exact (reads_lines_marks quote (by omega)).closes (closed_lines mark quote enough)

theorem length_takeWhile_take (f : Char → Bool) (s : List Char) {few many : Nat} (h : few ≤ many) :
    ((s.take few).takeWhile f).length = min few ((s.take many).takeWhile f).length := by
  induction s generalizing few many with
  | nil => simp
  | cons c s ih =>
    cases few with
    | zero => simp
    | succ few =>
      obtain ⟨many, rfl⟩ : ∃ n, many = n + 1 := ⟨many - 1, by omega⟩
      rw [List.take_succ_cons, List.take_succ_cons, List.takeWhile_cons, List.takeWhile_cons]
      split
      · rw [List.length_cons, List.length_cons, ih (Nat.le_of_succ_le_succ h), Nat.succ_min_succ]
      · simp

theorem marks_cons (mark : Char) (s : List Char) :
    marks mark (mark :: s) = min 4 (marks mark s) + 1 := by
  rw [marks, List.take_succ_cons, List.takeWhile_cons, if_pos (by simp), List.length_cons,
    length_takeWhile_take _ _ (by omega : 4 ≤ 5), marks]

theorem take_marks (mark : Char) (s : List Char) :
    s.take (marks mark s) = List.replicate (marks mark s) mark := by
  have front : (s.take 5).takeWhile (· = mark) <+: s :=
    (List.takeWhile_prefix _).trans (List.take_prefix 5 s)
  rw [marks, ← List.prefix_iff_eq_take.mp front, List.eq_replicate_iff]
  refine ⟨rfl, fun c member => ?_⟩
  simpa using List.all_eq_true.mp List.all_takeWhile c member

theorem marks_le (mark : Char) (s : List Char) : marks mark s ≤ 5 :=
  (List.takeWhile_prefix _).length_le.trans (List.length_take_le 5 s)

/-- A backslash before white space of which some is no carriage return. -/
theorem reads_continued (white : ∀ c ∈ s, c ≠ '"' ∧ c ≠ '\\') (visible : ∃ c ∈ s, c ≠ '\r') :
    Reads (.escaped true) s (.lines '"' 0) 0 := by
  induction s with
  | nil => simp at visible
  | cons c s ih =>
    by_cases skipped : c = '\r'
    · have more : ∃ c ∈ s, c ≠ '\r' := by simpa [skipped] using visible
      intro rest
      rw [List.cons_append, scan, if_pos skipped]
      exact ih (fun c member => white c (List.mem_cons_of_mem _ member)) more rest
    · refine (reads_one (p := .escaped true) rfl skipped).before (reads_stay rfl fun c member _ => ?_)
      exact next_resumed true (white c (List.mem_cons_of_mem _ member))

theorem continued?_reads (read : continued? s = some rest) :
    ∃ raw, s = raw ++ rest ∧ Reads (.escaped true) raw (.lines '"' 0) 0 := by
  have blank (c : Char) (member : c ∈ s.takeWhile isBlank) : c ≠ '"' ∧ c ≠ '\\' := by
    have blank := List.all_eq_true.mp List.all_takeWhile c member
    constructor <;> rintro rfl <;> simp [isBlank] at blank
  have white (t : List Char) (c : Char)
      (member : c ∈ t.takeWhile fun c => isBlank c || c = '\n' || c = '\r') : c ≠ '"' ∧ c ≠ '\\' := by
    have white := List.all_eq_true.mp List.all_takeWhile c member
    constructor <;> rintro rfl <;> simp [isBlank] at white
  -- the blanks, the line break, and the white space on the lines that follow
  have all (line t : List Char) (break_ : line = ['\n'] ∨ line = ['\r', '\n'])
      (whole : s.dropWhile isBlank = line ++ t)
      (left : t.dropWhile (fun c => isBlank c || c = '\n' || c = '\r') = rest) :
      ∃ raw, s = raw ++ rest ∧ Reads (.escaped true) raw (.lines '"' 0) 0 := by
    refine ⟨s.takeWhile isBlank ++ (line ++ t.takeWhile fun c => isBlank c || c = '\n' || c = '\r'), ?_,
      reads_continued ?_ ⟨'\n', by rcases break_ with rfl | rfl <;> simp, by decide⟩⟩
    · rw [List.append_assoc, List.append_assoc, ← left, List.takeWhile_append_dropWhile, ← whole,
        List.takeWhile_append_dropWhile]
    · intro c member
      rcases List.mem_append.mp member with front | member
      · exact blank c front
      rcases List.mem_append.mp member with middle | back
      · rcases break_ with rfl | rfl <;> simp at middle <;> rcases middle with rfl | rfl <;> decide
      · exact white t c back
  simp only [continued?] at read
  split at read
  · rename_i t found
    exact all ['\n'] t (.inl rfl) found (Option.some.inj read)
  · rename_i t found
    exact all ['\r', '\n'] t (.inr rfl) found (Option.some.inj read)
  · cases read

/-- The rest of a text on several lines. Marks that were passed already are fewer than three, with those
that follow. -/
theorem lines_settles (quote : mark = '"' ∨ mark = '\'') {fuel : Nat} {seen : List Char} {v : String}
    (few : k = 0 ∨ k + marks mark s < 3) (read : lines mark fuel seen s = some (v, rest)) :
    ∃ raw, s = raw ++ rest ∧ Settles (.lines mark k) raw 0 := by
  induction fuel generalizing seen s k with
  | zero => cases read
  | succ fuel ih =>
    cases s with
    | nil => cases read
    | cons c s =>
      have under : k < 3 := by omega
      simp only [lines, Option.bind_eq_bind] at read
      split at read
      · rename_i same
        subst same
        split at read
        · rename_i inner
          rw [marks_cons] at few inner
          obtain ⟨raw, rfl, settles⟩ := ih (k := k + 1) (.inr (by omega)) read
          exact ⟨c :: raw, rfl, (reads_lines_mark quote (by omega)).before_settles settles⟩
        · rename_i finished
          have zero : k = 0 := by omega
          have most := marks_le c (c :: s)
          cases read
          refine ⟨List.replicate (marks c (c :: s)) c, ?_, settles_marks quote (by omega) (by omega) under⟩
          rw [← take_marks, List.take_append_drop]
      · rename_i other
        split at read
        · rename_i escape
          simp only [Bool.and_eq_true, decide_eq_true_eq] at escape
          obtain ⟨rfl, rfl⟩ := escape
          split at read
          · rename_i after continued
            obtain ⟨white, rfl, passes⟩ := continued?_reads continued
            obtain ⟨raw, rfl, settles⟩ := ih (.inl rfl) read
            refine ⟨'\\' :: (white ++ raw), by simp, ?_⟩
            exact (reads_lines_backslash under).before_settles (passes.before_settles settles)
          · obtain ⟨⟨e, after⟩, escape, more⟩ := Option.bind_eq_some_iff.mp read
            obtain ⟨code, rfl, passes⟩ := escape?_reads true escape
            obtain ⟨raw, rfl, settles⟩ := ih (.inl rfl) more
            refine ⟨'\\' :: (code ++ raw), by simp, ?_⟩
            exact (reads_lines_backslash under).before_settles (passes.before_settles settles)
        · rename_i unescaped
          have plain : c ≠ '\\' ∨ mark = '\'' := by
            simp only [Bool.and_eq_true, decide_eq_true_eq, not_and] at unescaped
            by_cases backslash : c = '\\'
            · exact .inr (quote.resolve_left (unescaped backslash))
            · exact .inl backslash
          have step (visible : c ≠ '\r') : Reads (.lines mark k) [c] (.lines mark 0) 0 :=
            reads_lines_plain other under visible plain
          split at read
          · rename_i break_
            obtain ⟨raw, rfl, settles⟩ := ih (.inl rfl) read
            exact ⟨c :: raw, rfl, (step (by rw [break_]; decide)).before_settles settles⟩
          · split at read
            · rename_i return_
              subst return_
              split at read
              · obtain ⟨raw, rfl, settles⟩ := ih (.inl rfl) read
                exact ⟨'\r' :: '\n' :: raw, rfl, (reads_lines_break quote under).before_settles settles⟩
              · cases read
            · rename_i visible
              split at read
              · cases read
              · obtain ⟨raw, rfl, settles⟩ := ih (.inl rfl) read
                exact ⟨c :: raw, rfl, (step visible).before_settles settles⟩

theorem reads_opening (quote : mark = '"' ∨ mark = '\'') :
    Reads .outside [mark, mark, mark] (.lines mark 0) 0 := by
  have first := reads_one (p := .outside) (c := mark) rfl (ne_return quote)
  have second := reads_one (p := .opened mark) (c := mark) rfl (ne_return quote)
  have third := reads_one (p := .doubled mark) (c := mark) rfl (ne_return quote)
  have opens : Place.start mark = .opened mark := by rcases quote with rfl | rfl <;> rfl
  rw [next, opens] at first
  rw [next, if_pos rfl] at second
  rw [next, if_pos rfl] at third
  exact first.before (second.before third)

end Lines

theorem firstLine_reads (quote : mark = '"' ∨ mark = '\'') (s : List Char) :
    ∃ raw, s = raw ++ firstLine s ∧ Reads (.lines mark 0) raw (.lines mark 0) 0 := by
  have break_ : Reads (.lines mark 0) ['\n'] (.lines mark 0) 0 := by
    refine reads_lines_plain ?_ (by omega) (by decide) (.inl (by decide))
    rcases quote with rfl | rfl <;> decide
  rw [firstLine.eq_def]
  split
  · exact ⟨['\n'], rfl, break_⟩
  · refine ⟨['\r', '\n'], rfl, fun rest => ?_⟩
    rw [List.cons_append, scan, if_pos rfl]
    exact break_ rest
  · exact ⟨[], rfl, .nil _⟩

theorem read?_settles {v : String} (read : read? s = some (v, rest)) :
    ∃ raw, s = raw ++ rest ∧ Settles .outside raw 0 := by
  have several (mark : Char) (quote : mark = '"' ∨ mark = '\'') (fuel : Nat) (s : List Char)
      (read : lines mark fuel [] (firstLine s) = some (v, rest)) :
      ∃ raw, mark :: mark :: mark :: s = raw ++ rest ∧ Settles .outside raw 0 := by
    obtain ⟨first, whole, passes⟩ := firstLine_reads quote s
    obtain ⟨raw, after, settles⟩ := lines_settles quote (k := 0) (.inl rfl) read
    rw [after] at whole
    refine ⟨[mark, mark, mark] ++ (first ++ raw), by simp [whole], ?_⟩
    exact (reads_opening quote).before_settles (passes.before_settles settles)
  rw [read?.eq_def] at read
  split at read
  · exact several _ (.inl rfl) _ _ read
  · exact several _ (.inr rfl) _ _ read
  · exact readLine?_settles read

theorem isPlain_of_isBare {c : Char} (bare : isBare c = true) : IsPlain c := by
  refine ⟨?_, ?_, ?_⟩ <;> rintro rfl <;> revert bare <;> decide

theorem readKey?_settles {v : String} (read : readKey? s = some (v, rest)) :
    ∃ raw, s = raw ++ rest ∧ Settles .outside raw 0 := by
  rw [readKey?.eq_def] at read
  split at read
  · cases read
  · cases read
  · exact readLine?_settles read
  · exact readLine?_settles read
  · dsimp only at read
    split at read
    · cases read
    · cases read
      refine ⟨s.takeWhile isBare, (List.takeWhile_append_dropWhile ..).symm, (reads_plain ?_).settles⟩
      exact fun c member => isPlain_of_isBare (List.all_eq_true.mp List.all_takeWhile c member)

/-! ## Writing -/

/-- In a basic text that is being written. -/
def Within : Bool → Place → Prop
  | false, p => InLine '"' p
  | true, p => ∃ k < 3, p = .lines '"' k

theorem Within.backslash {several : Bool} (within : Within several p) :
    Reads p ['\\'] (.escaped several) 0 := by
  cases several
  · exact reads_backslash within
  · obtain ⟨k, few, rfl⟩ := within
    exact reads_lines_backslash few

theorem Within.plain {several : Bool} (within : Within several p) (other : c ≠ '"') (visible : c ≠ '\r')
    (unescaped : c ≠ '\\') : Reads p [c] (resumed several) 0 := by
  cases several
  · exact reads_inLine_plain within other visible (.inl unescaped)
  · obtain ⟨k, few, rfl⟩ := within
    exact reads_lines_plain other few visible (.inl unescaped)

/-- A backslash, a character, and others of no meaning. -/
theorem Within.escape {several : Bool} (within : Within several p) (visible : c ≠ '\r')
    (plain : ∀ d ∈ s, d ≠ '"' ∧ d ≠ '\\') : Reads p ('\\' :: c :: s) (resumed several) 0 := by
  have escaped : Reads (.escaped several) [c] (resumed several) 0 := reads_one rfl visible
  refine within.backslash.before (escaped.before (reads_stay (ended_resumed several) fun d member _ => ?_))
  exact next_resumed several (plain d member)

theorem hexDigit_plain {n : Nat} (h : n < 16) : hexDigit n ≠ '"' ∧ hexDigit n ≠ '\\' := by
  revert n
  decide

theorem escaped_reads {several : Bool} (within : Within several p) (other : c ≠ '"') :
    Reads p (escaped several c) (resumed several) 0 := by
  have pair (e : Char) (visible : e ≠ '\r') : Reads p ['\\', e] (resumed several) 0 :=
    within.escape visible (by simp)
  rw [escaped]
  split_ifs with _ _ break_ _ _ return_ backslash control
  · exact pair _ (by decide)
  · exact pair _ (by decide)
  · exact within.plain other (by rw [break_]; decide) (by rw [break_]; decide)
  · exact pair _ (by decide)
  · exact pair _ (by decide)
  · exact pair _ (by decide)
  · exact pair _ (by decide)
  · have code : c.toNat / 16 < 16 := by
      simp only [isControl, Bool.or_eq_true, Bool.and_eq_true, decide_eq_true_eq] at control
      omega
    refine within.escape (by decide) fun d member => ?_
    simp only [List.mem_cons, List.not_mem_nil, or_false] at member
    rcases member with rfl | rfl | rfl | rfl
    · decide
    · decide
    · exact hexDigit_plain code
    · exact hexDigit_plain (Nat.mod_lt _ (by omega))
  · exact within.plain other return_ backslash

theorem basicInside_reads (s : List Char) {k : Nat} (inside : InLine '"' p) :
    ∃ q, InLine '"' q ∧ Reads p (basicInside false k s) q 0 := by
  induction s generalizing p k with
  | nil => exact ⟨p, inside, .nil p⟩
  | cons c s ih =>
    obtain ⟨q, within, reads⟩ := ih (p := .line '"') (k := 0) (.inr rfl)
    refine ⟨q, within, ?_⟩
    have here : Within false p := inside
    rw [basicInside, Bool.false_and, if_neg Bool.false_ne_true]
    split
    · exact (here.escape (s := []) (by decide) (by simp)).before reads
    · rename_i other
      exact (escaped_reads here other).before reads

theorem basicInside_reads_several (s : List Char) {k : Nat} (few : k < 3) :
    ∃ left < 3, Reads (.lines '"' k) (basicInside true k s) (.lines '"' left) 0 := by
  induction s generalizing k with
  | nil => exact ⟨k, few, .nil _⟩
  | cons c s ih =>
    rw [basicInside, Bool.true_and]
    have within : Within true (.lines '"' k) := ⟨k, few, rfl⟩
    split
    · rename_i mark
      split
      · rename_i more
        obtain ⟨left, under, reads⟩ := ih (k := k + 1) (by simp at more; omega)
        exact ⟨left, under, mark ▸ (reads_lines_mark (.inl rfl) (by omega)).before reads⟩
      · obtain ⟨left, under, reads⟩ := ih (k := 0) (by omega)
        exact ⟨left, under, (within.escape (s := []) (by decide) (by simp)).before reads⟩
    · rename_i other
      obtain ⟨left, under, reads⟩ := ih (k := 0) (by omega)
      exact ⟨left, under, (escaped_reads within other).before reads⟩

theorem reads_mark (quote : mark = '"' ∨ mark = '\'') : Reads .outside [mark] (.opened mark) 0 := by
  have step := reads_one (p := .outside) (c := mark) rfl (ne_return quote)
  rcases quote with rfl | rfl <;> exact step

theorem basicText_settles (s : List Char) : Settles .outside (basicText s).toList 0 := by
  obtain ⟨q, within, reads⟩ := basicInside_reads s (p := .opened '"') (k := 0) (.inl rfl)
  have closed := settles_close within (.inl rfl)
  simpa [basicText] using (reads_mark (.inl rfl)).before_settles (reads.before_settles closed)

theorem literalText_settles (plain : ∀ c ∈ s, c ≠ '\'' ∧ c ≠ '\r') :
    Settles .outside (literalText s).toList 0 := by
  obtain ⟨q, within, reads⟩ := reads_inLine_all (p := .opened '\'') (s := s) (.inl rfl) fun c member =>
    ⟨(plain c member).1, (plain c member).2, .inr rfl⟩
  have closed := settles_close within (.inr rfl)
  simpa [literalText] using (reads_mark (.inr rfl)).before_settles (reads.before_settles closed)

theorem opening_reads (quote : mark = '"' ∨ mark = '\'') (s : List Char) :
    Reads .outside ([mark, mark, mark] ++ (opening s).toList) (.lines mark 0) 0 := by
  refine (reads_opening quote).before ?_
  rw [opening]
  split
  · refine reads_lines_plain ?_ (by omega) (by decide) (.inl (by decide))
    rcases quote with rfl | rfl <;> decide
  · exact .nil _

theorem basicLines_settles (s : List Char) : Settles .outside (basicLines s).toList 0 := by
  obtain ⟨left, few, reads⟩ := basicInside_reads_several s (k := 0) (by omega)
  have closed : Settles (.lines '"' left) (List.replicate 3 '"') 0 :=
    settles_marks (.inl rfl) (by omega) (by omega) few
  simpa [basicLines, List.append_assoc] using
    (opening_reads (.inl rfl) s).before_settles (reads.before_settles closed)

theorem takeWhile_le_longestRun (mark : Char) (s : List Char) :
    (s.takeWhile (· = mark)).length ≤ longestRun mark s := by
  cases s with
  | nil => simp
  | cons c s => exact Nat.le_max_left _ _

/-- Runs of marks that are too short to end a text. -/
theorem reads_runs (quote : mark = '"' ∨ mark = '\'') {k : Nat}
    (plain : ∀ c ∈ s, c ≠ '\r' ∧ (c ≠ '\\' ∨ mark = '\'')) (short : longestRun mark s < 3)
    (few : k + (s.takeWhile (· = mark)).length < 3) :
    ∃ left < 3, Reads (.lines mark k) s (.lines mark left) 0 := by
  induction s generalizing k with
  | nil => exact ⟨k, by omega, .nil _⟩
  | cons c s ih =>
    have rest : longestRun mark s < 3 := (Nat.le_max_right _ _).trans_lt short
    have later := fun c member => plain c (List.mem_cons_of_mem _ member)
    by_cases same : c = mark
    · rw [List.takeWhile_cons, if_pos (by simpa using same), List.length_cons] at few
      obtain ⟨left, under, reads⟩ := ih later rest (k := k + 1) (by omega)
      exact ⟨left, under, same ▸ (reads_lines_mark quote (by omega)).before reads⟩
    · have first := takeWhile_le_longestRun mark s
      obtain ⟨left, under, reads⟩ := ih later rest (k := 0) (by omega)
      obtain ⟨visible, unescaped⟩ := plain c List.mem_cons_self
      exact ⟨left, under, (reads_lines_plain same (by omega) visible unescaped).before reads⟩

theorem literalLines_settles (plain : ∀ c ∈ s, c ≠ '\r') (short : longestRun '\'' s < 3) :
    Settles .outside (literalLines s).toList 0 := by
  have first := takeWhile_le_longestRun '\'' s
  obtain ⟨left, few, reads⟩ := reads_runs (k := 0) (.inr rfl)
    (fun c member => ⟨plain c member, .inr rfl⟩) short (by omega)
  have closed : Settles (.lines '\'' left) (List.replicate 3 '\'') 0 :=
    settles_marks (.inr rfl) (by omega) (by omega) few
  simpa [literalLines, List.append_assoc] using
    (opening_reads (.inr rfl) s).before_settles (reads.before_settles closed)

theorem longestRun_pos (mark : Char) (member : mark ∈ s) : 0 < longestRun mark s := by
  induction s with
  | nil => cases member
  | cons c s ih =>
    rcases List.mem_cons.mp member with rfl | later
    · refine Nat.lt_of_lt_of_le ?_ (Nat.le_max_left _ _)
      simp
    · exact (ih later).trans_le (Nat.le_max_right _ _)

/-- A text in quotation marks has no comments in it. -/
theorem text_settles (value : String) : Settles .outside (text value).toList 0 := by
  simp only [text]
  split_ifs with _ literal _ several _
  · exact basicText_settles _
  · simp only [Bool.and_eq_true, Bool.not_eq_true', decide_eq_true_eq, List.any_eq_false, not_and] at literal
    obtain ⟨⟨control, single⟩, -⟩ := literal
    refine literalText_settles fun c member => ⟨?_, ?_⟩
    · rintro rfl
      exact absurd (longestRun_pos _ member) (by omega)
    · rintro rfl
      exact control _ member isControl_return (by decide)
  · exact basicLines_settles _
  · simp only [Bool.and_eq_true, Bool.not_eq_true', decide_eq_true_eq, List.any_eq_false, not_and] at several
    obtain ⟨control, single⟩ := several
    refine literalLines_settles (fun c member => ?_) (by omega)
    rintro rfl
    exact control _ member isControl_return (by decide)
  · exact basicLines_settles _
  · exact basicText_settles _

theorem key_settles (name : String) : Settles .outside (key name).toList 0 := by
  simp only [key]
  split_ifs with bare _ literal
  · simp only [Bool.and_eq_true, List.all_eq_true] at bare
    exact (reads_plain fun c member => isPlain_of_isBare (bare.2 c member)).settles
  · exact basicText_settles _
  · simp only [Bool.and_eq_true, Bool.not_eq_true', List.any_eq_false] at literal
    refine literalText_settles fun c member => ⟨?_, ?_⟩
    · rintro rfl
      simp [member] at literal
    · rintro rfl
      exact absurd isControl_return (literal.1 _ member)
  · exact basicText_settles _

end Quoted

end LinterClient.Toml
