import LinterClient.Proofs.Text.Utf8

/-!
The text of any bytes.

Bytes are read one sequence after the other. A text is read back from its own bytes, and a slash among the
bytes is read as a slash whatever stands around it, since no sequence of more bytes contains one.
-/

namespace LinterClient.Utf8

/-! ## The bytes of a character -/

theorem lead?_ofNat {n : Nat} (bound : n < 256) :
    lead? (UInt8.ofNat n) =
      if n < 0x80 then some (1, 0, 0)
      else if 0xC2 ≤ n ∧ n ≤ 0xDF then some (2, 0x80, 0xBF)
      else if n = 0xE0 then some (3, 0xA0, 0xBF)
      else if n = 0xED then some (3, 0x80, 0x9F)
      else if 0xE1 ≤ n ∧ n ≤ 0xEF then some (3, 0x80, 0xBF)
      else if n = 0xF0 then some (4, 0x90, 0xBF)
      else if n = 0xF4 then some (4, 0x80, 0x8F)
      else if 0xF1 ≤ n ∧ n ≤ 0xF3 then some (4, 0x80, 0xBF)
      else none := by
  revert n
  decide +kernel

/-- The number that the bytes after the first one spell, behind what the first one says. -/
def spelled (first : Nat) (bytes : List UInt8) : Nat :=
  bytes.foldl (fun acc d => acc * 64 + d.toNat % 64) first

theorem sequence_single {b low high : UInt8} (lead : lead? b = some (1, low, high)) (more : List UInt8) :
    sequence b more = (1, some (Char.ofNat b.toNat)) := by
  simp only [sequence, lead]

section Long

variable {b c low high : UInt8} {size : Nat}

theorem sequence_alone (lead : lead? b = some (size, low, high)) (long : 2 ≤ size) :
    sequence b [] = (1, none) := by
  obtain ⟨size, rfl⟩ := Nat.exists_eq_add_of_le' long
  rw [sequence, lead]
  rfl

/-- How a sequence of more than one byte goes on. -/
theorem sequence_cons (lead : lead? b = some (size, low, high)) (long : 2 ≤ size) (more : List UInt8) :
    sequence b (c :: more) =
      if c < low ∨ high < c then (1, none)
      else if ((more.take (size - 2)).takeWhile isContinuation).length = size - 2 then
        (size, some (Char.ofNat (spelled (b.toNat % 1 <<< (7 - size))
          (c :: (more.take (size - 2)).takeWhile isContinuation))))
      else (2 + ((more.take (size - 2)).takeWhile isContinuation).length, none) := by
  obtain ⟨size, rfl⟩ := Nat.exists_eq_add_of_le' long
  rw [sequence, lead]
  rfl

theorem sequence_whole (lead : lead? b = some (size, low, high)) (long : 2 ≤ size) (least : low ≤ c)
    (most : c ≤ high) (tail : List UInt8) (inside : ∀ d ∈ tail, isContinuation d = true)
    (count : tail.length = size - 2) (more : List UInt8) :
    sequence b (c :: (tail ++ more)) =
      (size, some (Char.ofNat (spelled (b.toNat % 1 <<< (7 - size)) (c :: tail)))) := by
  have fits : ¬ (c < low ∨ high < c) := by
    rw [not_or, UInt8.not_lt, UInt8.not_lt]
    exact ⟨least, most⟩
  have start : ((tail ++ more).take (size - 2)).takeWhile isContinuation = tail := by
    rw [← count, List.take_left]
    have all : (tail ++ []).takeWhile isContinuation = tail ++ [] := List.takeWhile_append_of_pos inside
    rwa [List.append_nil] at all
  rw [sequence_cons lead long, if_neg fits, start, if_pos count]

end Long

/-! A byte after the first one carries six bits. -/

def later (n : Nat) : UInt8 :=
  UInt8.ofNat (n % 64 + 128)

theorem later_toNat (n : Nat) : (later n).toNat = n % 64 + 128 :=
  UInt8.toNat_ofNat_of_lt' (by omega : n % 64 + 128 < 256)

theorem later_isContinuation (n : Nat) : isContinuation (later n) = true := by
  simp only [isContinuation, Bool.and_eq_true, decide_eq_true_eq, UInt8.le_iff_toNat_le, later_toNat]
  exact ⟨Nat.le_add_left _ _, show n % 64 + 128 ≤ 191 by omega⟩

theorem later_between {n : Nat} (low high : Nat) (least : low ≤ n % 64 + 128) (most : n % 64 + 128 ≤ high)
    (bound : high < 256) : UInt8.ofNat low ≤ later n ∧ later n ≤ UInt8.ofNat high := by
  rw [UInt8.le_iff_toNat_le, UInt8.le_iff_toNat_le, later_toNat,
    UInt8.toNat_ofNat_of_lt' (by omega : low < 256), UInt8.toNat_ofNat_of_lt' bound]
  exact ⟨least, most⟩

theorem lead?_three {v : Nat} (bound : v / 64 / 64 < 16) (least : 0x800 ≤ v)
    (valid : v < 0xD800 ∨ 0xDFFF < v) :
    ∃ low high, lead? (UInt8.ofNat (v / 64 / 64 + 224)) = some (3, low, high) ∧ low ≤ later (v / 64) ∧
      later (v / 64) ≤ high := by
  rw [lead?_ofNat (by omega), if_neg (by omega), if_neg (by omega)]
  split_ifs
  · exact ⟨_, _, rfl, later_between 0xA0 0xBF (by omega) (by omega) (by omega)⟩
  · exact ⟨_, _, rfl, later_between 0x80 0x9F (by omega) (by omega) (by omega)⟩
  · exact ⟨_, _, rfl, later_between 0x80 0xBF (by omega) (by omega) (by omega)⟩
  all_goals omega

theorem lead?_four {v : Nat} (bound : v < 0x110000) (least : 0x10000 ≤ v) :
    ∃ low high, lead? (UInt8.ofNat (v / 64 / 64 / 64 + 240)) = some (4, low, high) ∧
      low ≤ later (v / 64 / 64) ∧ later (v / 64 / 64) ≤ high := by
  rw [lead?_ofNat (by omega), if_neg (by omega), if_neg (by omega), if_neg (by omega), if_neg (by omega),
    if_neg (by omega)]
  split_ifs
  · exact ⟨_, _, rfl, later_between 0x90 0xBF (by omega) (by omega) (by omega)⟩
  · exact ⟨_, _, rfl, later_between 0x80 0x8F (by omega) (by omega) (by omega)⟩
  · exact ⟨_, _, rfl, later_between 0x80 0xBF (by omega) (by omega) (by omega)⟩
  · omega

/-- A character is read back from its bytes, whatever follows. -/
theorem sequence_encodeChar (c : Char) (more : List UInt8) :
    ∃ b bytes, String.utf8EncodeChar c = b :: bytes ∧
      sequence b (bytes ++ more) = (bytes.length + 1, some c) := by
  have valid : c.val.toNat < 0xD800 ∨ 0xDFFF < c.val.toNat ∧ c.val.toNat < 0x110000 := c.valid
  have whole : Char.ofNat c.val.toNat = c := Char.ofNat_toNat c
  have twice (n : Nat) : n / 4096 = n / 64 / 64 := by omega
  have thrice (n : Nat) : n / 262144 = n / 64 / 64 / 64 := by omega
  simp only [String.utf8EncodeChar, twice, thrice]
  generalize c.val.toNat = v at valid whole
  split_ifs with one two three
  · refine ⟨_, _, rfl, ?_⟩
    rw [sequence_single (by rw [lead?_ofNat (by omega), if_pos (by omega)]),
      UInt8.toNat_ofNat_of_lt' (by omega : v < 256), whole]
    rfl
  · have first : v / 64 % 32 = v / 64 := by omega
    rw [first]
    have lead : lead? (UInt8.ofNat (v / 64 + 192)) = some (2, 0x80, 0xBF) := by
      rw [lead?_ofNat (by omega), if_neg (by omega), if_pos (by omega)]
    obtain ⟨least, most⟩ := later_between (n := v) 0x80 0xBF (by omega) (by omega) (by omega)
    refine ⟨_, [later v], rfl, ?_⟩
    rw [List.cons_append, sequence_whole lead (Nat.le_refl 2) least most [] (by simp) rfl]
    have code : spelled ((UInt8.ofNat (v / 64 + 192)).toNat % 1 <<< (7 - 2)) [later v] = v := by
      simp only [spelled, List.foldl_cons, List.foldl_nil, later_toNat, Nat.reduceSub, Nat.reduceShiftLeft,
        UInt8.toNat_ofNat_of_lt' (by omega : v / 64 + 192 < 256)]
      omega
    rw [code, whole]
    rfl
  · have first : v / 64 / 64 % 16 = v / 64 / 64 := by omega
    rw [first]
    obtain ⟨low, high, lead, least, most⟩ :=
      lead?_three (v := v) (by omega) (by omega) (valid.imp_right And.left)
    refine ⟨_, [later (v / 64), later v], rfl, ?_⟩
    rw [List.cons_append, sequence_whole lead (by omega) least most [later v]
      (by simp [later_isContinuation]) rfl]
    have code : spelled ((UInt8.ofNat (v / 64 / 64 + 224)).toNat % 1 <<< (7 - 3)) [later (v / 64), later v] =
        v := by
      simp only [spelled, List.foldl_cons, List.foldl_nil, later_toNat, Nat.reduceSub, Nat.reduceShiftLeft,
        UInt8.toNat_ofNat_of_lt' (by omega : v / 64 / 64 + 224 < 256)]
      omega
    rw [code, whole]
    rfl
  · have bound : v < 0x110000 := by omega
    have first : v / 64 / 64 / 64 % 8 = v / 64 / 64 / 64 := by omega
    rw [first]
    obtain ⟨low, high, lead, least, most⟩ := lead?_four (v := v) bound (by omega)
    refine ⟨_, [later (v / 64 / 64), later (v / 64), later v], rfl, ?_⟩
    rw [List.cons_append, sequence_whole lead (by omega) least most [later (v / 64), later v]
      (by simp [later_isContinuation]) rfl]
    have code : spelled ((UInt8.ofNat (v / 64 / 64 / 64 + 240)).toNat % 1 <<< (7 - 4))
        [later (v / 64 / 64), later (v / 64), later v] = v := by
      simp only [spelled, List.foldl_cons, List.foldl_nil, later_toNat, Nat.reduceSub, Nat.reduceShiftLeft,
        UInt8.toNat_ofNat_of_lt' (by omega : v / 64 / 64 / 64 + 240 < 256)]
      omega
    rw [code, whole]
    rfl

/-! ## The characters of bytes -/

theorem lossyChars_cons (fuel : Nat) (b : UInt8) (rest : List UInt8) :
    lossyChars (fuel + 1) (b :: rest) = (sequence b rest).2.getD (Char.ofNat 0xFFFD) ::
      lossyChars fuel (rest.drop ((sequence b rest).1 - 1)) := rfl

theorem lossyChars_fuel {bytes : List UInt8} {fuel fuel' : Nat} (enough : bytes.length ≤ fuel)
    (enough' : bytes.length ≤ fuel') : lossyChars fuel bytes = lossyChars fuel' bytes := by
  induction fuel generalizing bytes fuel' with
  | zero =>
    have empty : bytes = [] := List.length_eq_zero_iff.mp (Nat.le_zero.mp enough)
    subst empty
    cases fuel' <;> rfl
  | succ fuel ih =>
    cases bytes with
    | nil => cases fuel' <;> rfl
    | cons b rest =>
      rw [List.length_cons] at enough enough'
      obtain ⟨fuel', rfl⟩ := Nat.exists_eq_add_of_le' (by omega : 1 ≤ fuel')
      have shorter : (rest.drop ((sequence b rest).1 - 1)).length ≤ rest.length := by simp
      have behind : lossyChars fuel (rest.drop ((sequence b rest).1 - 1)) =
          lossyChars fuel' (rest.drop ((sequence b rest).1 - 1)) := ih (by omega) (by omega)
      rw [lossyChars_cons, lossyChars_cons, behind]

/-- The characters that bytes are read as. -/
def chars (bytes : List UInt8) : List Char :=
  lossyChars bytes.length bytes

theorem chars_cons (b : UInt8) (rest : List UInt8) :
    chars (b :: rest) = (sequence b rest).2.getD (Char.ofNat 0xFFFD) ::
      chars (rest.drop ((sequence b rest).1 - 1)) := by
  have shorter : (rest.drop ((sequence b rest).1 - 1)).length ≤ rest.length := by simp
  rw [chars, List.length_cons, lossyChars_cons, chars, lossyChars_fuel shorter (Nat.le_refl _)]

theorem chars_encode (s : List Char) : chars (s.flatMap String.utf8EncodeChar) = s := by
  induction s with
  | nil => rfl
  | cons c s ih =>
    obtain ⟨b, bytes, encoded, read⟩ := sequence_encodeChar c (s.flatMap String.utf8EncodeChar)
    rw [List.flatMap_cons, encoded, List.cons_append, chars_cons, read]
    simp [ih]

theorem encode_of_decode? {bytes : List UInt8} {s : String} (decoded : decode? bytes = some s) :
    encode s = bytes := by
  rw [decode?, String.fromUTF8?] at decoded
  split at decoded
  · cases decoded
    rw [encode, toList_eq_data]
    rfl
  · cases decoded

theorem lossy_toList (bytes : List UInt8) : (lossy bytes).toList = chars bytes := by
  rw [lossy]
  cases decoded : decode? bytes with
  | none => exact String.toList_ofList
  | some s =>
    rw [Option.getD_some, ← encode_of_decode? decoded, encode_eq_flatMap, chars_encode]

/-! ## ASCII bytes among others -/

theorem lead?_table : ∀ n < 256, ∀ found ∈ lead? (UInt8.ofNat n), found.1 = 1 ∧ n < 128 ∨
    2 ≤ found.1 ∧ 0x80 ≤ found.2.1 ∧ found.2.2 ≤ 0xBF ∧
      128 ≤ (n % 1 <<< (7 - found.1) * 64 + found.2.1.toNat % 64) * 64 ^ (found.1 - 2) := by
  decide +kernel

/-- A sequence is one ASCII byte, or has more bytes and spells no ASCII character. -/
theorem lead?_cases {b low high : UInt8} {size : Nat} (lead : lead? b = some (size, low, high)) :
    size = 1 ∧ b.toNat < 128 ∨ 2 ≤ size ∧ 0x80 ≤ low ∧ high ≤ 0xBF ∧
      128 ≤ (b.toNat % 1 <<< (7 - size) * 64 + low.toNat % 64) * 64 ^ (size - 2) := by
  have row := lead?_table b.toNat b.toNat_lt
  rw [UInt8.ofNat_toNat] at row
  exact row (size, low, high) lead

theorem le_spelled (first : Nat) (bytes : List UInt8) : first * 64 ^ bytes.length ≤ spelled first bytes := by
  induction bytes generalizing first with
  | nil => simp [spelled]
  | cons c bytes ih =>
    have later := ih (first * 64 + c.toNat % 64)
    have grown : first * 64 * 64 ^ bytes.length ≤ (first * 64 + c.toNat % 64) * 64 ^ bytes.length :=
      Nat.mul_le_mul_right _ (Nat.le_add_right _ _)
    rw [List.length_cons, Nat.pow_succ', ← Nat.mul_assoc]
    exact Nat.le_trans grown later

theorem spelled_beyond {b c low high : UInt8} {size : Nat} (lead : lead? b = some (size, low, high))
    (long : 2 ≤ size) (above : low ≤ c) (below : c ≤ high) {tail : List UInt8}
    (count : tail.length = size - 2) : 128 ≤ spelled (b.toNat % 1 <<< (7 - size)) (c :: tail) := by
  obtain ⟨rfl, -⟩ | ⟨-, least, most, beyond⟩ := lead?_cases lead
  · omega
  rw [UInt8.le_iff_toNat_le] at above below least most
  have bits : low.toNat % 64 ≤ c.toNat % 64 := by
    have least : 128 ≤ low.toNat := least
    have most : high.toNat ≤ 191 := most
    omega
  have code := le_spelled (b.toNat % 1 <<< (7 - size) * 64 + c.toNat % 64) tail
  rw [count] at code
  have grown := Nat.mul_le_mul_right (64 ^ (size - 2))
    (Nat.add_le_add_left bits (b.toNat % 1 <<< (7 - size) * 64))
  exact Nat.le_trans beyond (Nat.le_trans grown code)

theorem toNat_ofNat_ascii : ∀ n < 128, (Char.ofNat n).toNat = n := by
  decide +kernel

theorem toNat_ofNat_cases (n : Nat) : (Char.ofNat n).toNat = n ∨ (Char.ofNat n).toNat = 0 := by
  by_cases valid : n.isValidChar
  · left
    rw [Char.ofNat, dif_pos valid]
    rfl
  · right
    rw [Char.ofNat, dif_neg valid]
    rfl

theorem ofNat_ne_ofNat {n code : Nat} (ascii : 0 < n ∧ n < 128) (beyond : 128 ≤ code) :
    Char.ofNat code ≠ Char.ofNat n := by
  intro same
  have numbers := congrArg Char.toNat same
  rw [toNat_ofNat_ascii n ascii.2] at numbers
  rcases toNat_ofNat_cases code with kept | lost <;> omega

section Ascii

variable {a : UInt8}

theorem takeWhile_take_append {p : UInt8 → Bool} (refused : p a = false) (s t : List UInt8) (n : Nat) :
    ((s ++ a :: t).take n).takeWhile p = (s.take n).takeWhile p := by
  induction s generalizing n with
  | nil => cases n <;> simp [refused]
  | cons b s ih =>
    cases n with
    | zero => rfl
    | succ n => simp only [List.cons_append, List.take_succ_cons, List.takeWhile_cons, ih]

/-- An ASCII byte is no part of a sequence that starts before it. -/
theorem sequence_append (ascii : a < 0x80) (b : UInt8) (s t : List UInt8) :
    sequence b (s ++ a :: t) = sequence b s ∧ (sequence b s).1 - 1 ≤ s.length := by
  cases lead : lead? b with
  | none => simp [sequence, lead]
  | some found =>
    obtain ⟨size, low, high⟩ := found
    rcases lead?_cases lead with ⟨rfl, -⟩ | ⟨long, least, -⟩
    · rw [sequence_single lead, sequence_single lead]
      exact ⟨rfl, Nat.zero_le _⟩
    · cases s with
      | nil =>
        have before : a < low := by
          rw [UInt8.lt_iff_toNat_lt] at ascii ⊢
          rw [UInt8.le_iff_toNat_le] at least
          exact Nat.lt_of_lt_of_le ascii least
        rw [List.nil_append, sequence_cons lead long, if_pos (Or.inl before), sequence_alone lead long]
        exact ⟨rfl, Nat.zero_le _⟩
      | cons c more =>
        have refused : isContinuation a = false := by
          rw [isContinuation, decide_eq_false (UInt8.not_le.mpr ascii), Bool.false_and]
        rw [List.cons_append, sequence_cons lead long, sequence_cons lead long, takeWhile_take_append refused]
        refine ⟨rfl, ?_⟩
        have front := (List.takeWhile_sublist isContinuation (l := more.take (size - 2))).length_le
        rw [List.length_take] at front
        rw [List.length_cons]
        split_ifs <;> simp only <;> omega

theorem sequence_ascii (ascii : a < 0x80) (t : List UInt8) :
    sequence a t = (1, some (Char.ofNat a.toNat)) := by
  apply sequence_single
  rw [lead?, if_pos ascii]

theorem chars_append (ascii : a < 0x80) (s t : List UInt8) :
    chars (s ++ a :: t) = chars s ++ Char.ofNat a.toNat :: chars t := by
  induction h : s.length using Nat.strongRecOn generalizing s with
  | ind size ih =>
  subst h
  cases s with
  | nil =>
    rw [List.nil_append, chars_cons, sequence_ascii ascii]
    rfl
  | cons b s =>
    obtain ⟨same, inside⟩ := sequence_append ascii b s t
    have shorter : (s.drop ((sequence b s).1 - 1)).length < (b :: s).length := by
      simp only [List.length_drop, List.length_cons]
      omega
    rw [List.cons_append, chars_cons, chars_cons, same, List.drop_append_of_le_length inside,
      ih _ shorter _ rfl]
    rfl

/-- Only the byte itself is read as an ASCII character. -/
theorem sequence_eq_ascii (ascii : 0 < a ∧ a < 0x80) {b : UInt8} {s : List UInt8}
    (read : (sequence b s).2.getD (Char.ofNat 0xFFFD) = Char.ofNat a.toNat) : b = a := by
  have small : 0 < a.toNat ∧ a.toNat < 128 := by
    rw [UInt8.lt_iff_toNat_lt, UInt8.lt_iff_toNat_lt] at ascii
    exact ascii
  have replaced : Char.ofNat 0xFFFD ≠ Char.ofNat a.toNat := ofNat_ne_ofNat small (by omega)
  cases lead : lead? b with
  | none => exact absurd (by simpa [sequence, lead] using read) replaced
  | some found =>
    obtain ⟨size, low, high⟩ := found
    rcases lead?_cases lead with ⟨rfl, single⟩ | ⟨long, -⟩
    · rw [sequence_single lead, Option.getD_some] at read
      have numbers := congrArg Char.toNat read
      rw [toNat_ofNat_ascii _ single, toNat_ofNat_ascii _ small.2] at numbers
      exact UInt8.toNat_inj.mp numbers
    · cases s with
      | nil =>
        rw [sequence_alone lead long] at read
        exact absurd read replaced
      | cons c more =>
        rw [sequence_cons lead long] at read
        split_ifs at read with outside whole
        · exact absurd read replaced
        · rw [not_or, UInt8.not_lt, UInt8.not_lt] at outside
          exact absurd read (ofNat_ne_ofNat small (spelled_beyond lead long outside.1 outside.2 whole))
        · exact absurd read replaced

theorem not_mem_chars (ascii : 0 < a ∧ a < 0x80) {s : List UInt8} (outside : a ∉ s) :
    Char.ofNat a.toNat ∉ chars s := by
  induction h : s.length using Nat.strongRecOn generalizing s with
  | ind size ih =>
  subst h
  cases s with
  | nil => exact List.not_mem_nil
  | cons b s =>
    have shorter : (s.drop ((sequence b s).1 - 1)).length < (b :: s).length := by
      simp only [List.length_drop, List.length_cons]
      omega
    rw [chars_cons, List.mem_cons, not_or]
    constructor
    · intro read
      exact outside (sequence_eq_ascii ascii read.symm ▸ List.mem_cons_self)
    · exact ih _ shorter (fun member => outside (List.mem_cons_of_mem _ (List.mem_of_mem_drop member))) rfl

end Ascii

end LinterClient.Utf8
