import LinterClient.Proofs.Toml.Comments.Legible
import LinterClient.Proofs.Toml.Comments.Words
import LinterClient.Proofs.Toml.Encoding
import LinterClient.Proofs.Toml.Representable

/-!
What is made has no comments: the text of a value, and the items that settings are stored as.
-/

namespace LinterClient.Toml

/-! ## Numbers and dates -/

/-- All characters of a text are plain. -/
def PlainText (s : String) : Prop := ∀ c ∈ s.toList, IsPlain c

instance (s : String) : Decidable (PlainText s) :=
  inferInstanceAs (Decidable (∀ c ∈ s.toList, IsPlain c))

theorem PlainText.append {s t : String} (first : PlainText s) (second : PlainText t) : PlainText (s ++ t) := by
  intro c member
  rw [String.toList_append] at member
  exact (List.mem_append.mp member).elim (first c) (second c)

theorem plainText_digits (n : Nat) : PlainText (String.ofList (Nat.toDigits 10 n)) := by
  intro c member
  rw [String.toList_ofList] at member
  exact isPlain_of_isDigit (Nat.isDigit_of_mem_toDigits (by decide) (by decide) member)

theorem plainText_nat (n : Nat) : PlainText (toString n) := by
  rw [Nat.toString_eq_ofList_toDigits]
  exact plainText_digits n

theorem plainText_int (n : Int) : PlainText (toString n) := by
  cases n with
  | ofNat n => exact plainText_nat n
  | negSucc n => exact PlainText.append (s := "-") (by decide) (plainText_nat (n + 1))

theorem plainText_zeros (n : Nat) : PlainText (Binary64.zeros n) := by
  intro c member
  rw [Binary64.zeros, String.toList_ofList] at member
  rw [List.eq_of_mem_replicate member]
  decide

theorem plainText_magnitude (d : Binary64.Decimal) : PlainText (Binary64.positionalMagnitude d) := by
  have digits := plainText_digits d.digits
  rw [Binary64.positionalMagnitude]
  split
  · exact digits.append (plainText_zeros _)
  · have padded := (plainText_zeros ((-d.exponent).toNat + 1 - (Binary64.digitText d.digits).length)).append digits
    refine PlainText.append (PlainText.append ?_ (by decide)) ?_ <;> intro c member <;>
      rw [String.toList_ofList] at member
    · exact padded c (List.mem_of_mem_take member)
    · exact padded c (List.mem_of_mem_drop member)

theorem plainText_sign (negative : Bool) : PlainText (if negative then "-" else "") := by
  cases negative <;> decide

theorem plainText_positional (x : Binary64) : PlainText x.positional := by
  rw [Binary64.positional]
  split
  · exact (plainText_sign _).append (by decide)
  · refine ((plainText_sign _).append (plainText_magnitude _)).append ?_
    split <;> decide

theorem plainText_float (x : Binary64) : PlainText (Value.floatText x) := by
  rw [Value.floatText]
  split
  · exact plainText_positional x
  · refine (plainText_sign _).append ?_
    split <;> decide

theorem plainText_pad (width n : Nat) : PlainText (pad width n) := by
  refine PlainText.append (fun c member => ?_) (plainText_nat n)
  rw [String.toList_ofList] at member
  rw [List.eq_of_mem_replicate member]
  decide

theorem plainText_date (d : Date) : PlainText d.text :=
  ((((plainText_pad _ _).append (by decide)).append (plainText_pad _ _)).append (by decide)).append
    (plainText_pad _ _)

theorem plainText_fraction (n : Nat) : PlainText (Time.fractionText n) := by
  rw [Time.fractionText]
  split
  · decide
  · intro c member
    rw [String.toList_ofList, List.mem_reverse] at member
    exact plainText_pad 9 n c (List.mem_reverse.mp ((List.dropWhile_suffix _).subset member))

theorem plainText_time (t : Time) : PlainText t.text := by
  rw [Time.text]
  refine PlainText.append (PlainText.append (PlainText.append (PlainText.append (plainText_pad _ _) (by decide))
    (plainText_pad _ _)) ?_) ?_
  · split
    · exact PlainText.append (by decide) (plainText_pad _ _)
    · decide
  · split
    · exact PlainText.append (by decide) (plainText_fraction _)
    · decide

theorem plainText_offset (o : Offset) : PlainText o.text := by
  cases o with
  | zulu => decide
  | ahead n =>
    refine PlainText.append (PlainText.append (PlainText.append ?_ (plainText_pad _ _)) (by decide))
      (plainText_pad _ _)
    split <;> decide

theorem plainText_datetime (d : Datetime) : PlainText d.text := by
  cases d with
  | date d => exact plainText_date d
  | time t => exact plainText_time t
  | both d t offset =>
    refine ((plainText_date d).append (by decide)).append (plainText_time t) |>.append ?_
    cases offset with
    | none => decide
    | some o => exact plainText_offset o

/-! ## Values -/

/-- A text without comments that leads outside. -/
def Silent (s : String) : Prop := Settles .outside s.toList 0

section Silence

variable {s t : String}

theorem PlainText.silent (plain : PlainText s) : Silent s := (reads_plain plain).settles

theorem PlainText.before (plain : PlainText s) (silent : Silent t) : Silent (s ++ t) := by
  rw [Silent, String.toList_append]
  exact (reads_plain plain).before_settles silent

theorem Silent.append (first : Silent s) (opens : Open t.toList) (second : Silent t) : Silent (s ++ t) := by
  rw [Silent, String.toList_append]
  simpa using Settles.append first opens second

theorem Silent.plain (silent : Silent s) (plain : PlainText t) : Silent (s ++ t) :=
  silent.append (open_plain plain) plain.silent

end Silence

namespace Value

theorem open_textItems (items : List Value) : Open (textItems false items).toList := by
  cases items with
  | nil => exact open_plain (by decide)
  | cons v rest =>
    rw [textItems, if_neg Bool.false_ne_true, String.append_assoc, String.toList_append]
    exact open_cons (c := ',') (by decide) (by simp)

theorem silent_textItems (first : Bool) {items : List Value} (each : ∀ v ∈ items, Silent v.text) :
    Silent (textItems first items) := by
  induction items generalizing first with
  | nil =>
    rw [textItems]
    exact PlainText.silent (by decide)
  | cons v rest ih =>
    have more := ih false fun v member => each v (List.mem_cons_of_mem _ member)
    rw [textItems, String.append_assoc]
    refine PlainText.before ?_ ((each v List.mem_cons_self).append (open_textItems rest) more)
    cases first <;> decide

theorem open_textMembers (members : List (String × Value)) : Open (textMembers false members).toList := by
  cases members with
  | nil => exact open_plain (by decide)
  | cons m rest =>
    rw [textMembers, if_neg Bool.false_ne_true]
    simp only [String.append_assoc, String.toList_append]
    exact open_cons (c := ',') (by decide) (by simp)

theorem silent_textMembers (first : Bool) {members : List (String × Value)}
    (each : ∀ p ∈ members, Silent p.2.text) : Silent (textMembers first members) := by
  induction members generalizing first with
  | nil =>
    rw [textMembers]
    exact PlainText.silent (by decide)
  | cons m rest ih =>
    obtain ⟨k, v⟩ := m
    have more := ih false fun p member => each p (List.mem_cons_of_mem _ member)
    have value := (each (k, v) List.mem_cons_self).append (open_textMembers rest) more
    have equals : Silent (" = " ++ (v.text ++ textMembers false rest)) := PlainText.before (by decide) value
    rw [textMembers, String.append_assoc, String.append_assoc, String.append_assoc]
    refine PlainText.before ?_ (Silent.append (Quoted.key_settles k) ?_ equals)
    · cases first <;> decide
    · rw [String.toList_append]
      exact open_cons (c := ' ') (by decide) (by simp)

/-- The text of a value has no comments. -/
theorem silent_text (v : Value) : Silent v.text := by
  induction v using Value.induct with
  | str s =>
    rw [text]
    exact Quoted.text_settles s
  | int n =>
    rw [text]
    exact (plainText_int n).silent
  | float x =>
    rw [text]
    exact (plainText_float x).silent
  | bool b =>
    rw [text]
    cases b <;> exact PlainText.silent (by decide)
  | datetime d =>
    rw [text]
    exact (plainText_datetime d).silent
  | array items ih =>
    rw [text]
    exact (PlainText.before (by decide) (silent_textItems true ih)).plain (by decide)
  | table members ih =>
    cases members with
    | nil =>
      rw [text]
      exact PlainText.silent (by decide)
    | cons m rest =>
      rw [text]
      exact (PlainText.before (by decide) (silent_textMembers true ih)).plain (by decide)

end Value

/-! ## Items -/

/-- An item without comments that can stand on lines as well as between braces. -/
structure Item.Fresh (i : Item) : Prop where
  comments : i.comments = 0
  legible : i.Legible true false
  inlinedComments : i.inlined.comments = 0
  inlinedLegible : i.inlined.Legible true true

theorem fresh_value (v : Value) : Item.Fresh (.value v none .usual) := by
  have legible (braced : Bool) : (Item.value v none .usual).Legible true braced :=
    .value v.silent_text (Trivia.fits_usual _)
  exact ⟨rfl, legible _, rfl, legible _⟩

theorem keyFits_new (name : String) (remaining : Option Nat) {i : Item} :
    Entries.KeyFits true (⟨name, none, .usual, .usual, remaining⟩, i) :=
  ⟨⟨Quoted.key_settles name, Trivia.blank_usual⟩, fun _ => ⟨gap_nil, blank_nil⟩,
    fun _ => .inl Trivia.blank_usual⟩

namespace Item

/-- Entries whose keys say nothing but their names. -/
def Renewed (entries : Entries) : Prop := ∀ e ∈ entries, ∃ name, e.1 = .new name

theorem comments_renewed {entries : Entries} (renewed : Renewed entries)
    (silent : ∀ e ∈ entries, e.2.comments = 0) : entriesComments entries = 0 := by
  induction entries with
  | nil => rfl
  | cons e rest ih =>
    obtain ⟨k, i⟩ := e
    obtain ⟨name, rfl⟩ := renewed (k, i) List.mem_cons_self
    have later := ih (fun e member => renewed e (List.mem_cons_of_mem _ member))
      fun e member => silent e (List.mem_cons_of_mem _ member)
    have usual : (Key.new name).around.comments = 0 := rfl
    rw [entriesComments, later, silent _ List.mem_cons_self, usual, ite_self]
    rfl

theorem entriesInlined_eq_map (entries : Entries) :
    entriesInlined entries = entries.map fun e => (.new e.1.name, e.2.inlined) := by
  induction entries with
  | nil => rfl
  | cons e rest ih => rw [entriesInlined, ih, List.map_cons]

theorem fresh_table {entries : Entries} (renewed : Renewed entries) (each : ∀ e ∈ entries, e.2.Fresh) :
    Fresh (.table entries .new) := by
  have keys (e : Key × Item) (member : e ∈ entries) : Entries.KeyFits true e := by
    obtain ⟨k, i⟩ := e
    obtain ⟨name, rfl⟩ := renewed (k, i) member
    exact keyFits_new name none
  have inlinedRenewed : Renewed (entriesInlined entries) := by
    intro e member
    rw [entriesInlined_eq_map] at member
    obtain ⟨old, -, rfl⟩ := List.mem_map.mp member
    exact ⟨_, rfl⟩
  have inlinedEach (e : Key × Item) (member : e ∈ entriesInlined entries) :
      e.2.comments = 0 ∧ e.2.Legible true true := by
    rw [entriesInlined_eq_map] at member
    obtain ⟨old, place, rfl⟩ := List.mem_map.mp member
    exact ⟨(each old place).inlinedComments, (each old place).inlinedLegible⟩
  have inlinedKeys (e : Key × Item) (member : e ∈ entriesInlined entries) : Entries.KeyFits true e := by
    obtain ⟨k, i⟩ := e
    obtain ⟨name, rfl⟩ := inlinedRenewed (k, i) member
    exact keyFits_new name none
  refine ⟨?_, .table keys (fun e member => (each e member).legible) (Trivia.fits_usual _) fun _ => rfl, ?_, ?_⟩
  · rw [comments, comments_renewed renewed fun e member => (each e member).comments]
    rfl
  · rw [inlined, comments,
      comments_renewed inlinedRenewed fun e member => (inlinedEach e member).1]
    rfl
  · rw [inlined]
    exact .inline inlinedKeys (fun e member => (inlinedEach e member).2) gap_nil
      (Trivia.fits_usual _) (by simp [Braces.new])

theorem fresh_members {m : Json.Members} (each : ∀ p ∈ m, ∀ i, ofJson? p.2 = some i → i.Fresh)
    {entries : Entries} (made : ofMembers? m = some entries) :
    Renewed entries ∧ ∀ e ∈ entries, e.2.Fresh := by
  induction m generalizing entries with
  | nil =>
    cases made
    exact ⟨by simp [Renewed], by simp⟩
  | cons head rest ih =>
    obtain ⟨name, v⟩ := head
    have later {entries : Entries} (made : ofMembers? rest = some entries) :=
      ih (fun p member => each p (List.mem_cons_of_mem _ member)) made
    by_cases absent : v = .null
    · subst absent
      exact later made
    · rw [ofMembers?_cons name absent] at made
      simp only [Option.bind_eq_some_iff, Option.some.injEq] at made
      obtain ⟨i, first, is, more, rfl⟩ := made
      obtain ⟨renewed, fresh⟩ := later more
      refine ⟨fun e member => ?_, fun e member => ?_⟩ <;> rcases List.mem_cons.mp member with rfl | other
      · exact ⟨name, rfl⟩
      · exact renewed e other
      · exact each (name, v) List.mem_cons_self i first
      · exact fresh e other

/-- What a setting is stored as has no comments. -/
theorem fresh_ofJson {v : Json} {i : Item} (made : ofJson? v = some i) : i.Fresh := by
  have plain {v : Json} {i : Item} (plain : ∀ m, v ≠ .obj m) (made : ofJson? v = some i) : i.Fresh := by
    rw [ofJson?_of_plain plain] at made
    obtain ⟨data, -, rfl⟩ := Option.map_eq_some_iff.mp made
    exact fresh_value data
  induction v using Json.induct generalizing i with
  | obj m ih =>
    obtain ⟨entries, members, rfl⟩ := Option.map_eq_some_iff.mp made
    obtain ⟨renewed, fresh⟩ := fresh_members (fun p member i made => ih p member made) members
    exact fresh_table renewed fresh
  | _ => exact plain (by simp) made

end Item

end LinterClient.Toml
