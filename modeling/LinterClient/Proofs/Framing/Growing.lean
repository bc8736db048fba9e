import LinterClient.Proofs.Framing

/-!
Messages on a byte stream that grows.

What was read from a stream stays as it is when more bytes come: only a reader that waits looks at the
same bytes again. A stream ends cleanly if it is cut between two frames.
-/

namespace LinterClient.Framing

/-- What the bytes received so far hold: their messages, and how they end if nothing can come after. -/
def scanFrom (ended : Bool) : Nat → List UInt8 → List Json × Option Ending
  | 0, _ => ([], none)
  | fuel + 1, bytes =>
    match read ended bytes with
    | .message value rest =>
      let (more, ending) := scanFrom ended fuel rest
      (value :: more, ending)
    | .wait => ([], none)
    | .finished => ([], some .finished)
    | .failed e => ([], some (.failed e))

def scan (ended : Bool) (bytes : List UInt8) : List Json × Option Ending :=
  scanFrom ended (bytes.length + 1) bytes

/-- A frame: one message and nothing else. -/
def IsFrame (bytes : List UInt8) : Prop :=
  ∃ value, read false bytes = .message value []

/-- The same header, with more bytes behind it. -/
def Header.grow (more : List UInt8) : Header → Header
  | .body length rest => .body length (rest ++ more)
  | other => other

/-- The same message, with more bytes behind it. -/
def Read.grow (more : List UInt8) : Read → Read
  | .message value rest => .message value (rest ++ more)
  | other => other

variable {ended started : Bool} {bytes more line rest : List UInt8} {fuel fuel' n : Nat}
  {length : Option Nat}

section Lines

/-- A line ends at a line break, or else with the stream. -/
theorem splitLine_eq_some (split : splitLine ended bytes = some (line, rest)) :
    (∃ text, (∀ b ∈ text, (b ≠ 10 : Bool) = true) ∧ line = text ++ [10] ∧ bytes = line ++ rest) ∨
      ended = true ∧ bytes ≠ [] ∧ rest = [] := by
  have parts := List.takeWhile_append_dropWhile (p := (· ≠ 10)) (l := bytes)
  unfold splitLine at split
  cases dropped : bytes.dropWhile (· ≠ 10) with
  | nil =>
    rw [dropped] at split
    dsimp only at split
    split at split
    · rename_i last
      simp only [Option.some.injEq, Prod.mk.injEq] at split
      obtain ⟨-, rfl⟩ := split
      right
      cases bytes <;> simp_all
    · simp at split
  | cons b after =>
    left
    rw [dropped] at split parts
    simp only [Option.some.injEq, Prod.mk.injEq] at split
    obtain ⟨rfl, rfl⟩ := split
    have break_ : b = 10 := by
      have stops := List.head?_dropWhile_not (fun b : UInt8 => decide (b ≠ 10)) bytes
      rw [dropped] at stops
      simpa using stops
    refine ⟨bytes.takeWhile (· ≠ 10), fun b => List.mem_takeWhile_imp, rfl, ?_⟩
    rw [break_] at parts
    simpa using parts.symm

theorem splitLine_append (split : splitLine false bytes = some (line, rest)) :
    splitLine ended (bytes ++ more) = some (line, rest ++ more) := by
  rcases splitLine_eq_some split with ⟨text, unbroken, rfl, rfl⟩ | ⟨last, -⟩
  · simpa using splitLine_of_break (rest ++ more) unbroken
  · simp at last

theorem splitLine_shorter (split : splitLine ended bytes = some (line, rest)) :
    rest.length < bytes.length := by
  rcases splitLine_eq_some split with ⟨text, -, rfl, rfl⟩ | ⟨-, some_, rfl⟩
  · simp
    omega
  · exact List.length_pos_iff.mpr some_

/-- A line that is not the last one has its line break. -/
theorem splitLine_broken (split : splitLine true bytes = some (line, rest)) (some_ : rest ≠ []) :
    bytes = line ++ rest ∧ ∀ tail, splitLine false (line ++ tail) = some (line, tail) := by
  rcases splitLine_eq_some split with ⟨text, unbroken, rfl, whole⟩ | ⟨-, -, none_⟩
  · exact ⟨whole, fun tail => by simpa using splitLine_of_break tail unbroken⟩
  · exact absurd none_ some_

theorem splitLine_true_eq_none : splitLine true bytes = none ↔ bytes = [] := by
  constructor
  · intro split
    unfold splitLine at split
    split at split
    · simp at split
    · simpa using split
  · rintro rfl
    rfl

end Lines

section Headers

theorem readHeader_append (enough : (bytes ++ more).length < fuel')
    (known : readHeader false fuel started length bytes ≠ .wait) :
    readHeader ended fuel' started length (bytes ++ more) =
      (readHeader false fuel started length bytes).grow more := by
  induction fuel generalizing bytes fuel' started length with
  | zero => exact absurd rfl known
  | succ fuel ih =>
    obtain ⟨fuel', rfl⟩ : ∃ k, fuel' = k + 1 := ⟨fuel' - 1, by omega⟩
    unfold readHeader at known ⊢
    cases split : splitLine false bytes with
    | none => simp [split] at known
    | some pair =>
      obtain ⟨line, rest⟩ := pair
      have shorter := splitLine_shorter split
      have fits : (rest ++ more).length < fuel' := by
        simp only [List.length_append] at enough ⊢
        omega
      simp only [split, splitLine_append split] at known ⊢
      cases kind : headerLine line with
      | error e => rfl
      | ok header =>
        simp only [kind] at known ⊢
        cases header with
        | last => cases length <;> rfl
        | other => exact ih fits known
        | length n => exact ih fits known

theorem readHeader_shorter (body : readHeader ended fuel started length bytes = .body n rest) :
    rest.length < bytes.length := by
  induction fuel generalizing bytes started length with
  | zero => simp [readHeader] at body
  | succ fuel ih =>
    unfold readHeader at body
    cases split : splitLine ended bytes with
    | none =>
      simp only [split] at body
      split at body
      · simp at body
      · split at body <;> simp at body
    | some pair =>
      obtain ⟨line, after⟩ := pair
      have shorter := splitLine_shorter split
      simp only [split] at body
      cases kind : headerLine line with
      | error e => simp [kind] at body
      | ok header =>
        simp only [kind] at body
        cases header with
        | last =>
          cases length with
          | none => simp at body
          | some k =>
            simp only [Header.body.injEq] at body
            rw [← body.2]
            exact shorter
        | other => exact (ih body).trans shorter
        | length k => exact (ih body).trans shorter

/-- With the whole stream at hand a header is never waited for. -/
theorem readHeader_ended (enough : bytes.length < fuel) :
    readHeader true fuel started length bytes ≠ .wait := by
  induction fuel generalizing bytes started length with
  | zero => omega
  | succ fuel ih =>
    unfold readHeader
    cases split : splitLine true bytes with
    | none => cases started <;> simp
    | some pair =>
      obtain ⟨line, after⟩ := pair
      have shorter := splitLine_shorter split
      have fits : after.length < fuel := by omega
      dsimp only
      cases kind : headerLine line with
      | error e => simp
      | ok header =>
        cases header with
        | last => cases length <;> simp
        | other => exact ih fits
        | length k => exact ih fits

theorem readHeader_started (started : Bool) : readHeader true fuel started length bytes = .finished →
    started = false ∧ bytes = [] := by
  intro finished
  induction fuel generalizing bytes started length with
  | zero => simp [readHeader] at finished
  | succ fuel ih =>
    unfold readHeader at finished
    cases split : splitLine true bytes with
    | none =>
      rw [split] at finished
      cases started with
      | false => exact ⟨rfl, splitLine_true_eq_none.mp split⟩
      | true => simp at finished
    | some pair =>
      obtain ⟨line, after⟩ := pair
      simp only [split] at finished
      cases kind : headerLine line with
      | error e => simp [kind] at finished
      | ok header =>
        simp only [kind] at finished
        cases header with
        | last => cases length <;> simp at finished
        | other => exact absurd (ih true finished).1 (by simp)
        | length k => exact absurd (ih true finished).1 (by simp)

/-- A header that is followed by something does not depend on what that is. -/
theorem readHeader_prefix (body : readHeader true fuel started length bytes = .body n rest)
    (some_ : rest ≠ []) : ∃ head, bytes = head ++ rest ∧ ∀ tail fuel', (head ++ tail).length < fuel' →
      readHeader false fuel' started length (head ++ tail) = .body n tail := by
  induction fuel generalizing bytes started length with
  | zero => simp [readHeader] at body
  | succ fuel ih =>
    cases split : splitLine true bytes with
    | none => cases started <;> simp [readHeader, split] at body
    | some pair =>
      obtain ⟨line, after⟩ := pair
      have shorter := splitLine_shorter split
      cases kind : headerLine line with
      | error e => simp [readHeader, split, kind] at body
      | ok header =>
        simp only [readHeader, split, kind] at body
        -- a line of the header, with the rest of the header behind it
        have onward : ∀ length', readHeader true fuel true length' after = .body n rest →
            (∀ k tail, splitLine false (line ++ tail) = some (line, tail) →
              readHeader false (k + 1) started length (line ++ tail) =
                readHeader false k true length' tail) →
            ∃ head, bytes = head ++ rest ∧ ∀ tail fuel', (head ++ tail).length < fuel' →
              readHeader false fuel' started length (head ++ tail) = .body n tail := by
          intro length' below through
          have inner : after ≠ [] := by
            rintro rfl
            exact absurd (readHeader_shorter below) (by simp)
          obtain ⟨whole, again⟩ := splitLine_broken split inner
          obtain ⟨head, rfl, reads⟩ := ih below
          refine ⟨line ++ head, by rw [whole, List.append_assoc], ?_⟩
          intro tail fuel' enough
          obtain ⟨k, rfl⟩ : ∃ k, fuel' = k + 1 := ⟨fuel' - 1, by omega⟩
          have some_ : 0 < line.length := by
            have sizes := congrArg List.length whole
            rw [List.length_append] at sizes
            omega
          rw [List.append_assoc, through k (head ++ tail) (again (head ++ tail))]
          refine reads tail k ?_
          simp only [List.length_append] at enough ⊢
          omega
        cases header with
        | last =>
          cases length with
          | none => simp at body
          | some k =>
            simp only [Header.body.injEq] at body
            obtain ⟨rfl, rfl⟩ := body
            obtain ⟨whole, again⟩ := splitLine_broken split some_
            refine ⟨line, whole, ?_⟩
            intro tail fuel' enough
            obtain ⟨fuel', rfl⟩ : ∃ k, fuel' = k + 1 := ⟨fuel' - 1, by omega⟩
            simp only [readHeader, again tail, kind]
        | other =>
          refine onward length body fun k tail again => ?_
          rw [readHeader, again]
          simp only [kind]
        | length m =>
          refine onward (some m) body fun k tail again => ?_
          rw [readHeader, again]
          simp only [kind]

end Headers

section Messages

variable {value : Json}

/-- What was read stays as it is when more bytes come. -/
theorem read_append (known : read false bytes ≠ .wait) :
    read ended (bytes ++ more) = (read false bytes).grow more := by
  have header : readHeader false (bytes.length + 1) false none bytes ≠ .wait := by
    intro waits
    simp [read, waits] at known
  unfold read at known ⊢
  rw [readHeader_append (Nat.lt_succ_self _) header]
  cases found : readHeader false (bytes.length + 1) false none bytes with
  | wait => rfl
  | finished => rfl
  | failed e => rfl
  | body length rest =>
    simp only [found, Header.grow] at known ⊢
    split
    · rfl
    · rename_i small
      rw [if_neg small] at known
      split at known
      · simp at known
      · rename_i enough
        have fits : ¬ (rest ++ more).length < length := by
          rw [List.length_append]
          omega
        rw [if_neg fits, List.take_append_of_le_length (by omega),
          List.drop_append_of_le_length (by omega)]
        have same : ¬ rest.length < length := enough
        rw [if_neg same]
        cases Json.parseBytes (rest.take length) <;> rfl

theorem read_body (known : read ended bytes = .message value rest) :
    ∃ length after, readHeader ended (bytes.length + 1) false none bytes = .body length after ∧
      ¬ maxFrameBytes < length ∧ ¬ after.length < length ∧
      Json.parseBytes (after.take length) = some value ∧ after.drop length = rest := by
  unfold read at known
  cases found : readHeader ended (bytes.length + 1) false none bytes with
  | wait => simp [found] at known
  | finished => simp [found] at known
  | failed e => simp [found] at known
  | body length after =>
    simp only [found] at known
    split at known
    · simp at known
    · rename_i small
      split at known
      · split at known <;> simp at known
      · rename_i enough
        cases parsed : Json.parseBytes (after.take length) with
        | none => simp [parsed] at known
        | some v =>
          simp only [parsed, Read.message.injEq] at known
          exact ⟨length, after, rfl, small, enough, by rw [parsed, known.1], known.2⟩

theorem read_shorter (known : read ended bytes = .message value rest) :
    rest.length < bytes.length := by
  obtain ⟨length, after, header, -, -, -, rfl⟩ := read_body known
  have shorter := readHeader_shorter header
  rw [List.length_drop]
  omega

theorem read_ended : read true bytes ≠ .wait := by
  unfold read
  have known : readHeader true (bytes.length + 1) false none bytes ≠ .wait :=
    readHeader_ended (Nat.lt_succ_self _)
  cases found : readHeader true (bytes.length + 1) false none bytes with
  | wait => exact absurd found known
  | finished => simp
  | failed e => simp
  | body length after =>
    dsimp only
    split
    · simp
    · split
      · simp
      · cases Json.parseBytes (after.take length) <;> simp

theorem read_finished : read true bytes = .finished ↔ bytes = [] := by
  constructor
  · intro finished
    unfold read at finished
    cases found : readHeader true (bytes.length + 1) false none bytes with
    | wait => simp [found] at finished
    | finished => exact (readHeader_started false found).2
    | failed e => simp [found] at finished
    | body length after =>
      simp only [found] at finished
      split at finished
      · simp at finished
      · split at finished
        · simp at finished
        · cases parsed : Json.parseBytes (after.take length) <;> simp [parsed] at finished
  · rintro rfl
    rfl

/-- The bytes that a message was read from are a frame. -/
theorem read_prefix (known : read true bytes = .message value rest) :
    ∃ frame, bytes = frame ++ rest ∧ read false frame = .message value [] := by
  obtain ⟨length, after, header, small, enough, parsed, rfl⟩ := read_body known
  have some_ : after ≠ [] := by
    rintro rfl
    have nothing : Json.parseBytes [] = none := by decide
    rw [List.take_nil, nothing] at parsed
    simp at parsed
  obtain ⟨head, whole, reads⟩ := readHeader_prefix header some_
  refine ⟨head ++ after.take length, by rw [List.append_assoc, List.take_append_drop, whole], ?_⟩
  unfold read
  rw [reads _ _ (Nat.lt_succ_self _)]
  have fits : ¬ (after.take length).length < length := by
    rw [List.length_take]
    omega
  simp only [if_neg small, if_neg fits, List.take_take, Nat.min_self, parsed]
  rw [List.drop_eq_nil_of_le (by rw [List.length_take]; omega)]

end Messages

section Streams

variable {value : Json}

theorem scanFrom_succ (ended : Bool) (fuel : Nat) (bytes : List UInt8) :
    scanFrom ended (fuel + 1) bytes = match read ended bytes with
      | .message value rest => (value :: (scanFrom ended fuel rest).1, (scanFrom ended fuel rest).2)
      | .wait => ([], none)
      | .finished => ([], some .finished)
      | .failed e => ([], some (.failed e)) := rfl

theorem scanFrom_eq (enough : bytes.length < fuel) (enough' : bytes.length < fuel') :
    scanFrom ended fuel bytes = scanFrom ended fuel' bytes := by
  induction fuel generalizing bytes fuel' with
  | zero => omega
  | succ fuel ih =>
    obtain ⟨fuel', rfl⟩ : ∃ k, fuel' = k + 1 := ⟨fuel' - 1, by omega⟩
    rw [scanFrom_succ, scanFrom_succ]
    cases known : read ended bytes with
    | message value rest =>
      have shorter := read_shorter known
      have same : scanFrom ended fuel rest = scanFrom ended fuel' rest := ih (by omega) (by omega)
      simp only [same]
    | wait => rfl
    | finished => rfl
    | failed e => rfl

/-- The bytes hold their first message, and what the bytes behind it hold. -/
theorem scan_message (known : read ended bytes = .message value rest) :
    scan ended bytes = (value :: (scan ended rest).1, (scan ended rest).2) := by
  have shorter := read_shorter known
  have step : scan ended bytes =
      (value :: (scanFrom ended bytes.length rest).1, (scanFrom ended bytes.length rest).2) := by
    rw [scan, scanFrom_succ, known]
  rw [step, scanFrom_eq shorter (Nat.lt_succ_self rest.length), scan]

theorem scan_wait (known : read ended bytes = .wait) : scan ended bytes = ([], none) := by
  rw [scan, scanFrom_succ, known]

theorem scan_finished (known : read ended bytes = .finished) :
    scan ended bytes = ([], some .finished) := by
  rw [scan, scanFrom_succ, known]

theorem scan_failed {e : Error} (known : read ended bytes = .failed e) :
    scan ended bytes = ([], some (.failed e)) := by
  rw [scan, scanFrom_succ, known]

theorem scanFrom_readAllFrom (enough : bytes.length < fuel) :
    scanFrom true fuel bytes = ((readAllFrom fuel bytes).1, some (readAllFrom fuel bytes).2) := by
  induction fuel generalizing bytes with
  | zero => omega
  | succ fuel ih =>
    rw [scanFrom_succ]
    unfold readAllFrom
    cases known : read true bytes with
    | message value rest =>
      have shorter := read_shorter known
      have same : scanFrom true fuel rest = ((readAllFrom fuel rest).1, some (readAllFrom fuel rest).2) :=
        ih (by omega)
      simp only [same]
    | wait => exact absurd known read_ended
    | finished => rfl
    | failed e => rfl

/-- A whole stream holds what is read of it. -/
theorem scan_readAll (bytes : List UInt8) :
    scan true bytes = ((readAll bytes).1, some (readAll bytes).2) :=
  scanFrom_readAllFrom (Nat.lt_succ_self bytes.length)

/-- What a stream held stays when it grows, and is all once the stream cannot be read any further. -/
theorem scan_append (bytes more : List UInt8) (ended : Bool) :
    (scan false bytes).1 <+: (scan ended (bytes ++ more)).1 ∧
      ((scan false bytes).2 ≠ none → scan ended (bytes ++ more) = scan false bytes) := by
  induction size : bytes.length using Nat.strong_induction_on generalizing bytes with
  | _ size ih =>
    cases known : read false bytes with
    | message value rest =>
      have grown : read ended (bytes ++ more) = .message value (rest ++ more) := by
        rw [read_append (by simp [known]), known]
        rfl
      obtain ⟨starts, all⟩ := ih rest.length (size ▸ read_shorter known) rest rfl
      rw [scan_message known, scan_message grown]
      exact ⟨List.cons_prefix_cons.mpr ⟨rfl, starts⟩, fun past => by rw [all past]⟩
    | wait => simp [scan_wait known]
    | finished =>
      have grown : read ended (bytes ++ more) = .finished := by
        rw [read_append (by simp [known]), known]
        rfl
      rw [scan_finished known, scan_finished grown]
      exact ⟨List.prefix_rfl, fun _ => rfl⟩
    | failed e =>
      have grown : read ended (bytes ++ more) = .failed e := by
        rw [read_append (by simp [known]), known]
        rfl
      rw [scan_failed known, scan_failed grown]
      exact ⟨List.prefix_rfl, fun _ => rfl⟩

/-- A stream ends cleanly if and only if it is made of frames. -/
theorem readAll_finished (bytes : List UInt8) :
    (readAll bytes).2 = .finished ↔
      ∃ frames : List (List UInt8), bytes = frames.flatten ∧ ∀ frame ∈ frames, IsFrame frame := by
  have same : (readAll bytes).2 = .finished ↔ (scan true bytes).2 = some .finished := by
    rw [scan_readAll]
    simp
  rw [same]
  clear same
  constructor
  · intro clean
    induction size : bytes.length using Nat.strong_induction_on generalizing bytes with
    | _ size ih =>
      cases known : read true bytes with
      | message value rest =>
        rw [scan_message known] at clean
        obtain ⟨frame, whole, reads⟩ := read_prefix known
        obtain ⟨frames, rfl, each⟩ := ih rest.length (size ▸ read_shorter known) rest
          clean rfl
        refine ⟨frame :: frames, by rw [whole, List.flatten_cons], ?_⟩
        intro other inside
        rcases List.mem_cons.mp inside with rfl | inside
        · exact ⟨value, reads⟩
        · exact each other inside
      | wait => exact absurd known read_ended
      | finished => exact ⟨[], read_finished.mp known, by simp⟩
      | failed e =>
        rw [scan_failed known] at clean
        simp at clean
  · rintro ⟨frames, rfl, each⟩
    induction frames with
    | nil => exact congrArg Prod.snd (scan_finished (read_finished.mpr rfl))
    | cons frame frames ih =>
      obtain ⟨value, reads⟩ := each frame List.mem_cons_self
      have known : read true (frame ++ frames.flatten) = .message value frames.flatten := by
        rw [read_append (by simp [reads]), reads]
        rfl
      rw [List.flatten_cons, scan_message known]
      exact ih fun other inside => each other (List.mem_cons_of_mem frame inside)

theorem read_encode {message : Json} (carried : Carried message) (rest : List UInt8) :
    read ended (encode message ++ rest) = .message message rest := by
  obtain ⟨frame, whole, reads⟩ := read_prefix (read_whole carried [])
  rw [List.append_nil, List.append_nil] at whole
  rw [whole, read_append (by simp [reads]), reads]
  rfl

/-- Bytes that are written for messages hold these messages. -/
theorem scan_encode {messages : List Json} (carried : ∀ m ∈ messages, Carried m) :
    scan false (messages.flatMap encode) = (messages, none) := by
  induction messages with
  | nil => rfl
  | cons message rest ih =>
    rw [List.flatMap_cons, scan_message (read_encode (carried message List.mem_cons_self) _),
      ih fun m member => carried m (List.mem_cons_of_mem _ member)]

end Streams

end LinterClient.Framing
