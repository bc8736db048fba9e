import Mathlib.Data.List.TakeWhile
import LinterClient.Framing
import LinterClient.Proofs.Text.Utf8

/-!
Messages on a byte stream that is cut off.

The reader takes almost any text for a header line, so a cut inside a header has to be looked at place by
place. What is left of the first line is never blank. After it a cut leaves a header without an end, or
a blank line and a body that is shorter than its length.
-/

namespace LinterClient

namespace Framing

open Text (isBlank trim)

section Lengths

theorem le_ofDigitChars (digits : List Char) (n : Nat) : n ≤ Nat.ofDigitChars 10 digits n := by
  induction digits generalizing n with
  | nil => rw [Nat.ofDigitChars_nil]
  | cons c rest ih =>
    rw [Nat.ofDigitChars_cons]
    have next := ih (10 * n + (c.toNat - '0'.toNat))
    omega

theorem parseLength_go {digits : List Char} {n : Nat} (decimal : ∀ c ∈ digits, c.isDigit = true)
    (small : Nat.ofDigitChars 10 digits n < 1 <<< 64) :
    parseLength.go n digits = .ok (Nat.ofDigitChars 10 digits n) := by
  induction digits generalizing n with
  | nil => rw [parseLength.go, Nat.ofDigitChars_nil]
  | cons c rest ih =>
    have digit : '0' ≤ c ∧ c ≤ '9' := by
      have digit := decimal c List.mem_cons_self
      rw [Char.isDigit, Bool.and_eq_true, decide_eq_true_eq, decide_eq_true_eq] at digit
      exact digit
    rw [Nat.ofDigitChars_cons] at small ⊢
    have same : n * 10 + (c.toNat - 48) = 10 * n + (c.toNat - '0'.toNat) := by
      rw [Nat.mul_comm]
      rfl
    have fits : 10 * n + (c.toNat - '0'.toNat) < 1 <<< 64 := by
      have grows := le_ofDigitChars rest (10 * n + (c.toNat - '0'.toNat))
      omega
    rw [parseLength.go, if_pos digit]
    dsimp only
    rw [same, if_pos fits, ih (fun c' member => decimal c' (List.mem_cons_of_mem _ member)) small]

theorem digits_decimal {n : Nat} : ∀ c ∈ Nat.toDigits 10 n, c.isDigit = true := by
  intro c member
  exact Nat.isDigit_of_mem_toDigits (by decide) (by decide) member

theorem parseLength_digits {n : Nat} (small : n < 1 <<< 64) :
    parseLength (Nat.toDigits 10 n) = .ok n := by
  have plain : ∀ rest, Nat.toDigits 10 n ≠ '+' :: rest := by
    intro rest plus
    have digit : '+'.isDigit = true := digits_decimal _ (plus ▸ List.mem_cons_self)
    exact absurd digit (by decide)
  have value : Nat.ofDigitChars 10 (Nat.toDigits 10 n) 0 = n := Nat.ofDigitChars_ten_toDigits
  unfold parseLength
  split
  · rename_i rest plus
    exact absurd plus (plain rest)
  · dsimp only
    rw [if_neg Nat.toDigits_ne_nil, if_neg Nat.toDigits_ne_nil, parseLength_go digits_decimal (by omega), value]

end Lengths

section Lines

theorem trim_append {before text after : List Char} {first last : Char}
    (blankBefore : ∀ c ∈ before, isBlank c = true) (blankAfter : ∀ c ∈ after, isBlank c = true)
    (head : text.head? = some first) (end_ : text.getLast? = some last)
    (noBlankHead : isBlank first = false) (noBlankEnd : isBlank last = false) :
    trim (before ++ text ++ after) = text := by
  have front : (before ++ text ++ after).dropWhile isBlank = text ++ after := by
    obtain ⟨rest, rfl⟩ := List.head?_eq_some_iff.mp head
    rw [List.append_assoc, List.dropWhile_append_of_pos blankBefore, List.cons_append,
      List.dropWhile_cons_of_neg (by simp [noBlankHead])]
  have back : (text ++ after).reverse.dropWhile isBlank = text.reverse := by
    obtain ⟨rest, rfl⟩ := List.getLast?_eq_some_iff.mp end_
    rw [List.reverse_append, List.dropWhile_append_of_pos (by simpa using blankAfter), List.reverse_append,
      List.reverse_singleton, List.singleton_append, List.dropWhile_cons_of_neg (by simp [noBlankEnd])]
  rw [trim, front, back, List.reverse_reverse]

theorem trim_ne_nil {c : Char} {text : List Char} (noBlank : isBlank c = false) :
    trim (c :: text) ≠ [] := by
  intro empty
  rw [trim, List.dropWhile_cons_of_neg (by simp [noBlank]), List.reverse_eq_nil_iff,
    List.dropWhile_eq_nil_iff] at empty
  have blank := empty c (by simp)
  rw [noBlank] at blank
  cases blank

def lengthName : List Char :=
  ['C', 'o', 'n', 't', 'e', 'n', 't', '-', 'L', 'e', 'n', 'g', 't', 'h']

/-- The first line of a message, without the end of its line break. -/
def lengthLine (n : Nat) : List Char :=
  lengthName ++ [':', ' '] ++ Nat.toDigits 10 n ++ ['\r']

def lengthBytes (n : Nat) : List UInt8 :=
  (lengthLine n).map (·.toNat.toUInt8)

theorem digit_code {c : Char} (digit : c.isDigit = true) : 48 ≤ c.toNat ∧ c.toNat ≤ 57 := by
  rw [Char.isDigit, Bool.and_eq_true, decide_eq_true_eq, decide_eq_true_eq] at digit
  exact ⟨UInt32.le_iff_toNat_le.mp digit.1, UInt32.le_iff_toNat_le.mp digit.2⟩

theorem lengthLine_codes {n : Nat} : ∀ c ∈ lengthLine n, 11 ≤ c.toNat ∧ c.toNat < 128 := by
  intro c member
  rw [lengthLine, List.mem_append, List.mem_append] at member
  rcases member with (name | digit) | return_
  · have codes : (lengthName ++ [':', ' ']).all (fun c => 11 ≤ c.toNat ∧ c.toNat < 128) = true := by decide
    exact of_decide_eq_true (List.all_eq_true.mp codes c name)
  · have code := digit_code (digits_decimal c digit)
    omega
  · rw [List.mem_singleton.mp return_]
    decide

theorem take_lengthBytes (n k : Nat) :
    (lengthBytes n).take k = Utf8.encode (String.ofList ((lengthLine n).take k)) := by
  have ascii : ∀ c ∈ (lengthLine n).take k, c.toNat < 128 := by
    intro c member
    exact (lengthLine_codes c (List.mem_of_mem_take member)).2
  rw [Utf8.encode_ofList _ ascii, List.map_take, lengthBytes]

theorem encode_eq (message : Json) :
    encode message = lengthBytes (Utf8.encode message.text).length ++
      10 :: 13 :: 10 :: Utf8.encode message.text := by
  have header (n : Nat) : "Content-Length: " ++ toString n ++ "\r\n\r\n" =
      String.ofList (lengthLine n ++ ['\n', '\r', '\n']) := by
    rw [← String.toList_inj]
    simp [lengthLine, lengthName, Nat.repr_eq_ofList_toDigits]
  have ascii (n : Nat) : ∀ c ∈ lengthLine n ++ ['\n', '\r', '\n'], c.toNat < 128 := by
    intro c member
    rcases List.mem_append.mp member with line | breaks
    · exact (lengthLine_codes c line).2
    · have codes : ['\n', '\r', '\n'].all (·.toNat < 128) = true := by decide
      exact of_decide_eq_true (List.all_eq_true.mp codes c breaks)
  rw [encode, header, Utf8.encode_ofList _ (ascii _), List.map_append, ← lengthBytes, List.append_assoc]
  rfl

theorem lengthBytes_unbroken {n : Nat} : ∀ b ∈ lengthBytes n, (b ≠ 10 : Bool) = true := by
  intro b member
  obtain ⟨c, inLine, rfl⟩ := List.mem_map.mp member
  have code := lengthLine_codes c inLine
  have value : c.toNat.toUInt8.toNat = c.toNat % 256 := rfl
  rw [decide_eq_true_eq]
  intro break_
  rw [break_, Nat.mod_eq_of_lt (by omega)] at value
  change 10 = c.toNat at value
  omega

theorem splitLine_of_break {line : List UInt8} {ended : Bool} (rest : List UInt8)
    (unbroken : ∀ b ∈ line, (b ≠ 10 : Bool) = true) :
    splitLine ended (line ++ 10 :: rest) = some (line ++ [10], rest) := by
  rw [splitLine, List.dropWhile_append_of_pos unbroken, List.takeWhile_append_of_pos unbroken]
  simp

theorem splitLine_of_end {line : List UInt8} (some_ : line ≠ [])
    (unbroken : ∀ b ∈ line, (b ≠ 10 : Bool) = true) : splitLine true line = some (line, []) := by
  rw [splitLine, List.dropWhile_eq_nil_iff.mpr unbroken]
  simp [some_]

/-- What a cut leaves of the first line is never taken for the end of the header. -/
theorem headerLine_take (n : Nat) {k : Nat} (some_ : 0 < k) :
    headerLine ((lengthBytes n).take k) ≠ .ok .last := by
  obtain ⟨k, rfl⟩ := Nat.exists_eq_succ_of_ne_zero (Nat.ne_of_gt some_)
  have begins : ∃ rest, (lengthLine n).take (k + 1) = 'C' :: rest := ⟨_, rfl⟩
  obtain ⟨rest, begins⟩ := begins
  rw [take_lengthBytes, headerLine, Utf8.decode?_encode, begins]
  dsimp only
  rw [String.toList_ofList, if_neg (trim_ne_nil (by decide))]
  split
  · simp
  · split
    · split <;> simp
    · simp

theorem headerLine_length {n : Nat} (small : n < 1 <<< 64) :
    headerLine (lengthBytes n ++ [10]) = .ok (.length n) := by
  have text : lengthBytes n ++ [10] = Utf8.encode (String.ofList (lengthLine n ++ ['\n'])) := by
    have ascii : ∀ c ∈ lengthLine n ++ ['\n'], c.toNat < 128 := by
      intro c member
      rcases List.mem_append.mp member with line | break_
      · exact (lengthLine_codes c line).2
      · rw [List.mem_singleton.mp break_]
        decide
    rw [Utf8.encode_ofList _ ascii, List.map_append, ← lengthBytes]
    rfl
  obtain ⟨first, decimal⟩ : ∃ c, (Nat.toDigits 10 n).head? = some c :=
    Option.ne_none_iff_exists'.mp (by simp)
  obtain ⟨last, end_⟩ : ∃ c, (Nat.toDigits 10 n).getLast? = some c :=
    Option.ne_none_iff_exists'.mp (by simp)
  have noBlank {c : Char} (member : c ∈ Nat.toDigits 10 n) : isBlank c = false := by
    have code := digit_code (digits_decimal c member)
    simp [isBlank]
    omega
  have line : trim (lengthLine n ++ ['\n']) = lengthName ++ [':', ' '] ++ Nat.toDigits 10 n := by
    have parts : lengthLine n ++ ['\n'] =
        [] ++ (lengthName ++ [':', ' '] ++ Nat.toDigits 10 n) ++ ['\r', '\n'] := by
      simp [lengthLine]
    rw [parts]
    have endsSo : (lengthName ++ [':', ' '] ++ Nat.toDigits 10 n).getLast? = some last := by
      rw [List.getLast?_append, end_]
      rfl
    have startsSo : (lengthName ++ [':', ' '] ++ Nat.toDigits 10 n).head? = some 'C' := rfl
    have blanks : ['\r', '\n'].all isBlank = true := by decide
    exact trim_append (by simp) (List.all_eq_true.mp blanks) startsSo endsSo (by decide)
      (noBlank (List.mem_of_getLast? end_))
  have value : trim (' ' :: Nat.toDigits 10 n) = Nat.toDigits 10 n := by
    have parts : ' ' :: Nat.toDigits 10 n = [' '] ++ Nat.toDigits 10 n ++ [] := by simp
    rw [parts]
    have blank : [' '].all isBlank = true := by decide
    exact trim_append (List.all_eq_true.mp blank) (by simp) decimal end_ (noBlank (List.mem_of_head? decimal))
      (noBlank (List.mem_of_getLast? end_))
  have dropped : (lengthName ++ [':', ' '] ++ Nat.toDigits 10 n).dropWhile (· ≠ ':') =
      ':' :: ' ' :: Nat.toDigits 10 n := rfl
  have taken : (lengthName ++ [':', ' '] ++ Nat.toDigits 10 n).takeWhile (· ≠ ':') = lengthName := rfl
  have named : isLengthName lengthName = true := by decide
  rw [text, headerLine, Utf8.decode?_encode]
  dsimp only
  rw [String.toList_ofList, line, if_neg (by simp), dropped, taken]
  dsimp only
  rw [if_pos named, value, parseLength_digits small]

end Lines

section Reads

theorem headerLine_blank {text : List Char} (ascii : ∀ c ∈ text, c.toNat < 128)
    (blank : trim text = []) : headerLine (text.map (·.toNat.toUInt8)) = .ok .last := by
  rw [← Utf8.encode_ofList _ ascii, headerLine, Utf8.decode?_encode]
  dsimp only
  rw [String.toList_ofList, if_pos blank]

theorem readHeader_whole {n fuel : Nat} {rest : List UInt8} (small : n < 1 <<< 64) :
    readHeader true (fuel + 2) false none (lengthBytes n ++ 10 :: 13 :: 10 :: rest) = .body n rest := by
  have first : splitLine true (lengthBytes n ++ 10 :: 13 :: 10 :: rest) =
      some (lengthBytes n ++ [10], 13 :: 10 :: rest) :=
    splitLine_of_break _ lengthBytes_unbroken
  have second : splitLine true (13 :: 10 :: rest) = some ([13, 10], rest) := rfl
  have blank : headerLine (['\r', '\n'].map (·.toNat.toUInt8)) = .ok .last :=
    headerLine_blank (by simp) rfl
  change headerLine [13, 10] = .ok .last at blank
  simp only [readHeader, first, headerLine_length small, second, blank]

/-- Without its last byte, the blank line is still one at the end of the stream. -/
theorem readHeader_return {n fuel : Nat} (small : n < 1 <<< 64) :
    readHeader true (fuel + 2) false none (lengthBytes n ++ [10, 13]) = .body n [] := by
  have first : splitLine true (lengthBytes n ++ [10, 13]) = some (lengthBytes n ++ [10], [13]) :=
    splitLine_of_break _ lengthBytes_unbroken
  have second : splitLine true [13] = some ([13], []) := rfl
  have blank : headerLine (['\r'].map (·.toNat.toUInt8)) = .ok .last := headerLine_blank (by simp) rfl
  change headerLine [13] = .ok .last at blank
  simp only [readHeader, first, headerLine_length small, second, blank]

theorem readHeader_line {n fuel : Nat} (small : n < 1 <<< 64) :
    readHeader true (fuel + 2) false none (lengthBytes n ++ [10]) = .failed .endInsideHeader := by
  have first : splitLine true (lengthBytes n ++ [10]) = some (lengthBytes n ++ [10], []) :=
    splitLine_of_break _ lengthBytes_unbroken
  have second : splitLine true [] = none := rfl
  simp only [readHeader, first, headerLine_length small, second]
  rfl

theorem readHeader_take {n k fuel : Nat} (some_ : 0 < k) :
    ∃ e, readHeader true (fuel + 2) false none ((lengthBytes n).take k) = .failed e := by
  have rest : (lengthBytes n).take k ≠ [] := by
    intro empty
    have length := congrArg List.length empty
    simp [lengthBytes, lengthLine] at length
    omega
  have unbroken : ∀ b ∈ (lengthBytes n).take k, (b ≠ 10 : Bool) = true := by
    intro b member
    exact lengthBytes_unbroken b (List.mem_of_mem_take member)
  have first := splitLine_of_end rest unbroken
  have second : splitLine true [] = none := rfl
  have more := headerLine_take n some_
  simp only [readHeader, first, second]
  cases line : headerLine ((lengthBytes n).take k) with
  | error e => exact ⟨e, rfl⟩
  | ok found =>
    cases found with
    | last => exact absurd line more
    | other => exact ⟨.endInsideHeader, rfl⟩
    | length m => exact ⟨.endInsideHeader, rfl⟩

/-- A message that its text stands for and that is short enough to be read. -/
structure Carried (message : Json) : Prop where
  short : (Utf8.encode message.text).length ≤ maxFrameBytes
  parses : Json.parseBytes (Utf8.encode message.text) = some message

theorem Carried.length_pos {message : Json} (carried : Carried message) :
    0 < (Utf8.encode message.text).length := by
  apply List.length_pos_iff.mpr
  intro empty
  have parses := carried.parses
  rw [empty] at parses
  cases parses

theorem Carried.small {message : Json} (carried : Carried message) :
    (Utf8.encode message.text).length < 1 <<< 64 :=
  Nat.lt_of_le_of_lt carried.short (by decide)

theorem read_whole {message : Json} (carried : Carried message) (rest : List UInt8) :
    read true (encode message ++ rest) = .message message rest := by
  have some_ : (encode message ++ rest).length ≠ 0 := by
    simp [encode_eq]
  obtain ⟨fuel, enough⟩ := Nat.exists_eq_succ_of_ne_zero some_
  have shape : encode message ++ rest = lengthBytes (Utf8.encode message.text).length ++
      10 :: 13 :: 10 :: (Utf8.encode message.text ++ rest) := by
    rw [encode_eq, List.append_assoc]
    rfl
  rw [read, enough, shape, readHeader_whole carried.small]
  have short := carried.short
  have enough : ¬ (Utf8.encode message.text ++ rest).length < (Utf8.encode message.text).length := by
    rw [List.length_append]
    omega
  dsimp only
  rw [if_neg (Nat.not_lt.mpr short), if_neg enough, List.take_left, carried.parses, List.drop_left]

/-- A message of which some bytes are missing, but not all, is an error. -/
theorem read_cut {message : Json} (carried : Carried message) {k : Nat} (some_ : 0 < k)
    (inside : k < (encode message).length) :
    ∃ e, read true ((encode message).take k) = .failed e := by
  have length : ((encode message).take k).length = k := List.length_take_of_le (Nat.le_of_lt inside)
  obtain ⟨fuel, rfl⟩ := Nat.exists_eq_succ_of_ne_zero (Nat.ne_of_gt some_)
  have small := carried.small
  have positive := carried.length_pos
  have short := Nat.not_lt.mpr carried.short
  rw [read, length]
  rw [encode_eq] at inside ⊢
  revert inside small positive short
  generalize Utf8.encode message.text = body
  intro inside small positive short
  rcases Nat.lt_or_ge (lengthBytes body.length).length (fuel + 1) with past | line
  · -- The cut comes after the first line.
    rw [List.take_append, List.take_of_length_le (Nat.le_of_lt past)]
    obtain ⟨after, place⟩ : ∃ after, fuel + 1 - (lengthBytes body.length).length = after + 1 :=
      Nat.exists_eq_succ_of_ne_zero (Nat.ne_of_gt (Nat.sub_pos_of_lt past))
    rw [place]
    match after with
    | 0 =>
      refine ⟨.endInsideHeader, ?_⟩
      rw [List.take_succ_cons, List.take_zero, readHeader_line small]
    | 1 =>
      refine ⟨.endInsideBody, ?_⟩
      rw [List.take_succ_cons, List.take_succ_cons, List.take_zero, readHeader_return small]
      dsimp only
      rw [if_neg short, if_pos (by simpa using positive), if_pos rfl]
    | j + 2 =>
      refine ⟨.endInsideBody, ?_⟩
      have missing : (body.take j).length < body.length := by
        simp only [List.length_append, List.length_cons] at inside
        rw [List.length_take]
        omega
      rw [List.take_succ_cons, List.take_succ_cons, List.take_succ_cons, readHeader_whole small]
      dsimp only
      rw [if_neg short, if_pos missing, if_pos rfl]
  · rw [List.take_append_of_le_length line]
    obtain ⟨e, fails⟩ : ∃ e, readHeader true (fuel + 2) false none
        ((lengthBytes body.length).take (fuel + 1)) = .failed e :=
      readHeader_take some_
    rw [fails]
    exact ⟨e, rfl⟩

end Reads

section Streams

/-- Where the first messages end. -/
def boundary (messages : List Json) (k : Nat) : Nat :=
  ((messages.take k).flatMap encode).length

theorem boundary_succ (message : Json) (rest : List Json) (k : Nat) :
    boundary (message :: rest) (k + 1) = (encode message).length + boundary rest k := by
  simp [boundary]

/-- How many messages lie inside a cut, and how what is read of them ends. -/
structure ReadsUpTo (messages : List Json) (n k : Nat) (ending : Ending) : Prop where
  whole : k ≤ messages.length
  inside : ∀ i ≤ messages.length, boundary messages i ≤ n ↔ i ≤ k
  clean : ending = .finished ↔ ∃ i ≤ messages.length, n = boundary messages i

theorem encode_length_pos (message : Json) : 0 < (encode message).length := by
  rw [encode_eq, List.length_append, List.length_cons]
  omega

theorem readAllFrom_nil (fuel : Nat) : readAllFrom (fuel + 1) [] = ([], .finished) := rfl

/-- Before the first message ends, nothing is read. -/
theorem ReadsUpTo.early {message : Json} {rest : List Json} {n : Nat} {ending : Ending}
    (cut : n < (encode message).length) (clean : ending = .finished ↔ n = 0) :
    ReadsUpTo (message :: rest) n 0 ending where
  whole := Nat.zero_le _
  inside := by
    intro i _
    cases i with
    | zero => simp [boundary]
    | succ i =>
      rw [boundary_succ]
      omega
  clean := by
    rw [clean]
    constructor
    · intro none_
      exact ⟨0, Nat.zero_le _, by rw [none_]; rfl⟩
    · rintro ⟨i, _, place⟩
      cases i with
      | zero => exact place
      | succ i =>
        rw [boundary_succ] at place
        omega

theorem ReadsUpTo.cons {message : Json} {rest : List Json} {n k : Nat} {ending : Ending}
    (reads : ReadsUpTo rest n k ending) :
    ReadsUpTo (message :: rest) ((encode message).length + n) (k + 1) ending where
  whole := Nat.succ_le_succ reads.whole
  inside := by
    intro i inRange
    cases i with
    | zero => simp [boundary]
    | succ i =>
      rw [boundary_succ, Nat.add_le_add_iff_left, Nat.add_le_add_iff_right]
      exact reads.inside i (Nat.le_of_succ_le_succ inRange)
  clean := by
    rw [reads.clean]
    constructor
    · rintro ⟨i, inRange, place⟩
      exact ⟨i + 1, Nat.succ_le_succ inRange, by rw [boundary_succ, place]⟩
    · rintro ⟨i, inRange, place⟩
      have some_ := encode_length_pos message
      cases i with
      | zero =>
        change _ = 0 at place
        omega
      | succ i =>
        rw [boundary_succ] at place
        exact ⟨i, Nat.le_of_succ_le_succ inRange, by omega⟩

theorem readAllFrom_take {messages : List Json} (carried : ∀ m ∈ messages, Carried m) {n fuel : Nat}
    (available : n ≤ (messages.flatMap encode).length) (enough : n < fuel) :
    ∃ k ending, readAllFrom fuel ((messages.flatMap encode).take n) = (messages.take k, ending) ∧
      ReadsUpTo messages n k ending := by
  induction messages generalizing n fuel with
  | nil =>
    obtain ⟨fuel, rfl⟩ := Nat.exists_eq_succ_of_ne_zero (Nat.ne_of_gt (Nat.zero_lt_of_lt enough))
    have none_ : n = 0 := Nat.le_zero.mp available
    refine ⟨0, .finished, by rw [none_]; exact readAllFrom_nil fuel, Nat.le_refl _, ?_, ?_⟩
    · intro i inRange
      simp [boundary]
      exact Nat.le_zero.mp inRange
    · simp [none_, boundary]
  | cons message rest ih =>
    obtain ⟨fuel, rfl⟩ := Nat.exists_eq_succ_of_ne_zero (Nat.ne_of_gt (Nat.zero_lt_of_lt enough))
    have first := carried message List.mem_cons_self
    rw [List.flatMap_cons] at available ⊢
    rcases Nat.lt_or_ge n (encode message).length with cut | past
    · rcases Nat.eq_zero_or_pos n with rfl | some_
      · exact ⟨0, .finished, by rw [List.take_zero]; exact readAllFrom_nil fuel, .early cut (by simp)⟩
      · obtain ⟨e, fails⟩ := read_cut first some_ cut
        refine ⟨0, .failed e, ?_, .early cut ?_⟩
        · rw [List.take_append_of_le_length (Nat.le_of_lt cut), readAllFrom, fails]
          rfl
        · constructor
          · intro finished
            cases finished
          · omega
    · obtain ⟨more, rfl⟩ := Nat.exists_eq_add_of_le past
      have some_ := encode_length_pos message
      rw [List.length_append] at available
      have others : ∀ m ∈ rest, Carried m := by
        intro m member
        exact carried m (List.mem_cons_of_mem _ member)
      have left : more ≤ (rest.flatMap encode).length := by omega
      have fewer : more < fuel := by omega
      obtain ⟨k, ending, reads, upTo⟩ := ih others left fewer
      refine ⟨k + 1, ending, ?_, upTo.cons⟩
      rw [List.take_length_add_append, readAllFrom, read_whole first]
      dsimp only
      rw [reads]
      rfl

/-- Of a stream that is cut off somewhere, the messages that lie inside the cut are read, and no
others. The stream ends well only if it is cut between two messages. -/
theorem reads_until_cut (messages : List Json)
    (short : ∀ m ∈ messages, (Utf8.encode m.text).length ≤ maxFrameBytes)
    (parses : ∀ m ∈ messages, Json.parseBytes (Utf8.encode m.text) = some m) (n : Nat)
    (available : n ≤ (messages.flatMap encode).length) :
    ∃ k ending, readAll ((messages.flatMap encode).take n) = (messages.take k, ending) ∧
      ReadsUpTo messages n k ending := by
  rw [readAll, List.length_take_of_le available]
  apply readAllFrom_take _ available (Nat.lt_succ_self n)
  intro m member
  exact ⟨short m member, parses m member⟩

/-- The stream is cut off inside the two bytes of the last letter. -/
theorem reads_until_cut_letter :
    let messages : List Json := [.obj [("id", .ofInt 7)], .arr [], .str "é"]
    let bytes := messages.flatMap encode
    (∀ m ∈ messages, (Utf8.encode m.text).length ≤ maxFrameBytes) ∧
      (∀ m ∈ messages, Json.parseBytes (Utf8.encode m.text) = some m) ∧
      bytes.length - 2 ≤ bytes.length ∧
      ∃ e, readAll (bytes.take (bytes.length - 2)) = (messages.take 2, .failed e) := by
  intro messages bytes
  have short : ∀ m ∈ messages, (Utf8.encode m.text).length ≤ maxFrameBytes := by decide +kernel
  have parses : ∀ m ∈ messages, Json.parseBytes (Utf8.encode m.text) = some m := by decide +kernel
  have available : bytes.length - 2 ≤ bytes.length := Nat.sub_le _ _
  obtain ⟨k, ending, reads, upTo⟩ := reads_until_cut messages short parses (bytes.length - 2) available
  have second : boundary messages 2 ≤ bytes.length - 2 := by decide +kernel
  have third : ¬ boundary messages 3 ≤ bytes.length - 2 := by decide +kernel
  have two : k = 2 := by
    have atLeast := (upTo.inside 2 (by decide)).mp second
    have less : ¬ 3 ≤ k := (upTo.inside 3 (by decide)).not.mp third
    omega
  have between : ¬ ∃ i ≤ messages.length, bytes.length - 2 = boundary messages i := by decide +kernel
  cases ending with
  | finished => exact absurd (upTo.clean.mp rfl) between
  | failed e => exact ⟨short, parses, available, e, two ▸ reads⟩

end Streams

end Framing

end LinterClient
