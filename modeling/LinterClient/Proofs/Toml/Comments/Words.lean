import LinterClient.Proofs.Toml.Comments
import LinterClient.Toml.Parser

/-!
Numbers, dates and words have neither number signs nor quotation marks in them.
-/

namespace LinterClient.Toml

/-- All characters before the rest of a text are plain. -/
def PlainUpTo (rest s : List Char) : Prop :=
  ∃ raw, s = raw ++ rest ∧ ∀ c ∈ raw, IsPlain c

section

variable {s t rest : List Char} {c : Char}

theorem PlainUpTo.refl (s : List Char) : PlainUpTo s s := ⟨[], rfl, by simp⟩

theorem PlainUpTo.cons (plain : IsPlain c) (more : PlainUpTo rest s) : PlainUpTo rest (c :: s) := by
  obtain ⟨raw, rfl, each⟩ := more
  refine ⟨c :: raw, rfl, fun d member => ?_⟩
  rcases List.mem_cons.mp member with rfl | later
  · exact plain
  · exact each d later

theorem PlainUpTo.trans (first : PlainUpTo t s) (second : PlainUpTo rest t) : PlainUpTo rest s := by
  obtain ⟨raw, rfl, each⟩ := first
  obtain ⟨more, rfl, others⟩ := second
  refine ⟨raw ++ more, (List.append_assoc ..).symm, fun c member => ?_⟩
  exact (List.mem_append.mp member).elim (each c) (others c)

theorem PlainUpTo.all (plain : PlainUpTo [] s) : ∀ c ∈ s, IsPlain c := by
  obtain ⟨raw, rfl, each⟩ := plain
  simpa using each

theorem isPlain_of_isDigit (digit : c.isDigit = true) : IsPlain c := by
  refine ⟨?_, ?_, ?_⟩ <;> rintro rfl <;> revert digit <;> decide

end

/-! ## Dates and times -/

section Dates

variable {s rest : List Char}

theorem fixed_plain {count n : Nat} (read : fixed count s = some (n, rest)) : PlainUpTo rest s := by
  simp only [fixed, Option.ite_none_right_eq_some, Option.some.injEq, Prod.mk.injEq] at read
  obtain ⟨digits, -, rfl⟩ := read
  have all : ((s.take count).filterMap digit?).length = (s.take count).length := by
    have some_ := List.length_filterMap_le digit? (s.take count)
    have most := List.length_take_le count s
    omega
  refine ⟨s.take count, (List.take_append_drop count s).symm, fun c member => ?_⟩
  have digit := List.filterMap_length_eq_length.mp all c member
  rw [digit?] at digit
  split at digit
  · exact isPlain_of_isDigit ‹_›
  · cases digit

theorem expect_plain {c : Char} (plain : IsPlain c) (read : expect c s = some rest) : PlainUpTo rest s := by
  cases s with
  | nil => cases read
  | cons d s =>
    simp only [expect, Option.ite_none_right_eq_some, Option.some.injEq] at read
    obtain ⟨rfl, rfl⟩ := read
    exact .cons plain (.refl _)

theorem Date.read?_plain {d : Date} (read : Date.read? s = some (d, rest)) : PlainUpTo rest s := by
  simp only [Date.read?, Option.bind_eq_bind, Option.bind_eq_some_iff, Option.ite_none_right_eq_some,
    Option.some.injEq, Prod.mk.injEq] at read
  obtain ⟨_, year, _, dash, _, month, _, dash', _, day, -, -, rfl⟩ := read
  exact (fixed_plain year).trans <| (expect_plain (by decide) dash).trans <| (fixed_plain month).trans <|
    (expect_plain (by decide) dash').trans (fixed_plain day)

namespace Time

theorem fraction?_plain {n : Option Nat} (read : fraction? s = some (n, rest)) : PlainUpTo rest s := by
  rw [fraction?.eq_def] at read
  split at read
  · rename_i t
    dsimp only at read
    split at read
    · cases read
    · cases read
      refine .cons (by decide) ⟨t.takeWhile Char.isDigit, List.takeWhile_append_dropWhile.symm, ?_⟩
      exact fun c member => isPlain_of_isDigit (List.all_eq_true.mp List.all_takeWhile c member)
  · cases read
    exact .refl _

theorem second?_plain {n f : Option Nat} (read : second? s = some (n, f, rest)) : PlainUpTo rest s := by
  rw [second?.eq_def] at read
  split at read
  · simp only [Option.bind_eq_bind, Option.bind_eq_some_iff, Option.some.injEq, Prod.mk.injEq] at read
    obtain ⟨_, second, _, fraction, -, -, rfl⟩ := read
    exact .cons (by decide) ((fixed_plain second).trans (fraction?_plain fraction))
  · cases read
    exact .refl _

theorem read?_plain {t : Time} (read : Time.read? s = some (t, rest)) : PlainUpTo rest s := by
  simp only [Time.read?, Option.bind_eq_bind, Option.bind_eq_some_iff, Option.ite_none_right_eq_some,
    Option.some.injEq, Prod.mk.injEq] at read
  obtain ⟨_, hour, _, colon, _, minute, _, second, -, -, rfl⟩ := read
  exact (fixed_plain hour).trans <| (expect_plain (by decide) colon).trans <|
    (fixed_plain minute).trans (second?_plain second)

end Time

theorem Offset.distance?_plain {n : Nat} (read : Offset.distance? s = some (n, rest)) :
    PlainUpTo rest s := by
  simp only [Offset.distance?, Option.bind_eq_bind, Option.bind_eq_some_iff, Option.ite_none_right_eq_some,
    Option.some.injEq, Prod.mk.injEq] at read
  obtain ⟨_, hours, _, colon, _, minutes, -, -, rfl⟩ := read
  exact (fixed_plain hours).trans ((expect_plain (by decide) colon).trans (fixed_plain minutes))

theorem Offset.read?_plain {o : Option Offset} (read : Offset.read? s = some (o, rest)) :
    PlainUpTo rest s := by
  rw [Offset.read?.eq_def] at read
  split at read
  · cases read
    exact .cons (by decide) (.refl _)
  · cases read
    exact .cons (by decide) (.refl _)
  · obtain ⟨⟨n, t⟩, distance, same⟩ := Option.map_eq_some_iff.mp read
    cases same
    exact .cons (by decide) (distance?_plain distance)
  · obtain ⟨⟨n, t⟩, distance, same⟩ := Option.map_eq_some_iff.mp read
    cases same
    exact .cons (by decide) (distance?_plain distance)
  · cases read
    exact .refl _

theorem Datetime.read?_plain {d : Datetime} (read : Datetime.read? s = some d) : ∀ c ∈ s, IsPlain c := by
  refine PlainUpTo.all ?_
  rw [Datetime.read?] at read
  split at read
  · rename_i date rest found
    refine (Date.read?_plain found).trans ?_
    cases rest with
    | nil => exact .refl _
    | cons c rest =>
      simp only [afterDate?, Option.bind_eq_bind, Option.ite_none_right_eq_some, Option.bind_eq_some_iff,
        List.isEmpty_iff] at read
      obtain ⟨separator, ⟨_, left⟩, time, ⟨_, _⟩, offset, rfl, -⟩ := read
      have plain : IsPlain c := by
        refine ⟨?_, ?_, ?_⟩ <;> rintro rfl <;> revert separator <;> decide
      exact .cons plain ((Time.read?_plain time).trans (Offset.read?_plain offset))
  · simp only [Option.bind_eq_bind, Option.bind_eq_some_iff, Option.ite_none_right_eq_some,
      List.isEmpty_iff] at read
    obtain ⟨⟨_, _⟩, time, rfl, -⟩ := read
    exact Time.read?_plain time

end Dates

/-! ## Numbers -/

namespace Number

variable {s : List Char}

theorem digitOf?_plain {base n : Nat} {c : Char} (read : digitOf? base c = some n) : IsPlain c := by
  refine ⟨?_, ?_, ?_⟩ <;> rintro rfl <;> simp [digitOf?] at read

theorem digits?_plain {base : Nat} {digits : List Nat} (read : digits? base s = some digits) :
    ∀ c ∈ s, IsPlain c := by
  fun_induction digits? base s generalizing digits with
  | case1 => cases read
  | case2 c =>
    obtain ⟨n, digit, -⟩ := Option.map_eq_some_iff.mp read
    simpa using digitOf?_plain digit
  | case3 c rest ih =>
    simp only [Option.bind_eq_bind, Option.bind_eq_some_iff] at read
    obtain ⟨n, digit, more, others, -⟩ := read
    have underscore : IsPlain '_' := by decide
    simpa [digitOf?_plain digit, underscore] using ih others
  | case4 c rest _ _ ih =>
    simp only [Option.bind_eq_bind, Option.bind_eq_some_iff] at read
    obtain ⟨n, digit, more, others, -⟩ := read
    simpa [digitOf?_plain digit] using ih others

theorem decimal?_plain {digits : List Nat} (read : decimal? s = some digits) : ∀ c ∈ s, IsPlain c := by
  simp only [decimal?, Option.bind_eq_bind, Option.bind_eq_some_iff] at read
  obtain ⟨all, found, -⟩ := read
  exact digits?_plain found

theorem unsigned_plain (plain : ∀ c ∈ (unsigned s).2, IsPlain c) : ∀ c ∈ s, IsPlain c := by
  rw [unsigned.eq_def] at plain
  have sign : IsPlain '+' ∧ IsPlain '-' := by decide
  split at plain
  · simpa [sign] using plain
  · simpa [sign] using plain
  · exact plain

theorem int?_plain {n : Int} (read : int? s = some n) : ∀ c ∈ s, IsPlain c := by
  obtain ⟨found, -⟩ := Option.filter_eq_some_iff.mp read
  have base : IsPlain '0' ∧ IsPlain 'x' ∧ IsPlain 'o' ∧ IsPlain 'b' := by decide
  rw [whole?.eq_def] at found
  split at found
  case h_4 =>
    obtain ⟨digits, decimal, -⟩ := Option.map_eq_some_iff.mp found
    exact unsigned_plain (decimal?_plain decimal)
  all_goals
    obtain ⟨digits, others, -⟩ := Option.map_eq_some_iff.mp found
    simpa [base] using digits?_plain others

theorem cut_plain {f : Char → Bool} (marks : ∀ c, f c = true → IsPlain c)
    (front : ∀ c ∈ (cut f s).1, IsPlain c)
    (behind : ∀ t, (cut f s).2 = some t → ∀ c ∈ t, IsPlain c) : ∀ c ∈ s, IsPlain c := by
  intro c member
  rw [← List.takeWhile_append_dropWhile (p := fun c => !f c) (l := s)] at member
  rcases List.mem_append.mp member with before | after
  · exact front c before
  · cases rest : s.dropWhile fun c => !f c with
    | nil => simp [rest] at after
    | cons d t =>
      have stopped := List.head?_dropWhile_not (fun c => !f c) s
      rw [rest] at after stopped
      rcases List.mem_cons.mp after with rfl | later
      · exact marks c (by simpa using stopped)
      · exact behind t (by simp [cut, rest]) c later

theorem exponent?_plain {n : Int} (read : exponent? s = some n) : ∀ c ∈ s, IsPlain c := by
  simp only [exponent?, Option.bind_eq_bind, Option.bind_eq_some_iff] at read
  obtain ⟨digits, found, -⟩ := read
  exact unsigned_plain (digits?_plain found)

theorem magnitude?_plain {x : Binary64} (read : magnitude? s = some x) : ∀ c ∈ s, IsPlain c := by
  simp only [magnitude?, Option.bind_eq_bind, Option.ite_none_left_eq_some, Option.bind_eq_some_iff] at read
  obtain ⟨-, digits, front, read⟩ := read
  refine cut_plain (f := fun c => c = 'e' || c = 'E') ?_ (cut_plain (f := (· = '.')) ?_ ?_ ?_) ?_
  · intro c mark
    rcases (by simpa using mark : c = 'e' ∨ c = 'E') with rfl | rfl <;> decide
  · intro c mark
    obtain rfl : c = '.' := by simpa using mark
    decide
  · exact decimal?_plain front
  · intro t found
    rw [found] at read
    obtain ⟨more, behind, -⟩ := Option.bind_eq_some_iff.mp read
    exact digits?_plain behind
  · intro t found
    rw [found] at read
    split at read <;> obtain ⟨_, _, power⟩ := Option.bind_eq_some_iff.mp read <;>
      obtain ⟨n, exponent, -⟩ := Option.bind_eq_some_iff.mp power <;> exact exponent?_plain exponent

theorem float?_plain {x : Binary64} (read : float? s = some x) : ∀ c ∈ s, IsPlain c := by
  simp only [float?, Option.bind_eq_bind] at read
  refine unsigned_plain ?_
  split at read
  · rename_i word
    rw [word]
    decide
  · split at read
    · rename_i word
      rw [word]
      decide
    · obtain ⟨y, found, -⟩ := Option.bind_eq_some_iff.mp read
      exact magnitude?_plain found

end Number

/-- A word that is a value. -/
theorem Parser.ofWord_plain {s : List Char} {v : Value} (read : ofWord s = some v) : ∀ c ∈ s, IsPlain c := by
  rw [ofWord] at read
  split at read
  · rename_i word
    rw [word]
    decide
  · split at read
    · rename_i word
      rw [word]
      decide
    · simp only [Option.orElse_eq_orElse, Option.orElse_eq_or, Option.or_eq_some_iff,
        Option.map_eq_some_iff] at read
      rcases read with ⟨d, date, -⟩ | ⟨-, ⟨n, int, -⟩ | ⟨-, x, float, -⟩⟩
      · exact Datetime.read?_plain date
      · exact Number.int?_plain int
      · exact Number.float?_plain float

end LinterClient.Toml
