import LinterClient.Toml.Edit
import Mathlib.Algebra.BigOperators.Group.List.Basic
import Mathlib.Algebra.Order.Group.Multiset

/-!
The comments of a TOML text, and those that the parts of a document carry.

A text is read character by character, only to tell its comments from what is in quotation marks. A
quoted text is over once something else than a further mark follows.
-/

namespace LinterClient.Toml

/-- Where a reader of a text stands. -/
inductive Place where
  | outside
  /-- Behind the first mark of a quoted text. -/
  | opened (mark : Char)
  /-- Behind two marks: an empty text, unless a third one follows. -/
  | doubled (mark : Char)
  | line (mark : Char)
  /-- In a text on several lines, behind so many of its marks. -/
  | lines (mark : Char) (run : Nat)
  /-- Behind a backslash. -/
  | escaped (several : Bool)
  | comment (seen : List Char)

namespace Place

def start (c : Char) : Place :=
  if c = '#' then .comment []
  else if c = '"' ∨ c = '\'' then .opened c
  else .outside

def inLine (mark c : Char) : Place :=
  if c = mark then .outside
  else if c = '\\' ∧ mark = '"' then .escaped false
  else .line mark

/-- Three marks end a text on several lines; one or two more of them still belong to it. -/
def next : Place → Char → Place
  | .outside, c => start c
  | .opened mark, c => if c = mark then .doubled mark else inLine mark c
  | .doubled mark, c => if c = mark then .lines mark 0 else start c
  | .line mark, c => inLine mark c
  | .lines mark run, c =>
    if c = mark then if run = 4 then .outside else .lines mark (run + 1)
    else if 3 ≤ run then start c
    else if c = '\\' ∧ mark = '"' then .escaped true
    else .lines mark 0
  | .escaped several, _ => if several then .lines '"' 0 else .line '"'
  | .comment seen, c => if c = '\n' then .outside else .comment (c :: seen)

/-- The comment that is over if the line is. -/
def ended : Place → Multiset String
  | .comment seen => {String.ofList seen.reverse}
  | .outside | .opened _ | .doubled _ | .line _ | .lines _ _ | .escaped _ => 0

end Place

/-- The comments in the characters that follow. Carriage returns are passed over. -/
def scan : Place → List Char → Multiset String
  | p, [] => p.ended
  | p, c :: s =>
    if c = '\r' then scan p s
    else (if c = '\n' then p.ended else 0) + scan (p.next c) s

/-- The comments of a text, without their number signs. -/
def comments (text : String) : Multiset String :=
  scan .outside text.toList

example : comments "a = '# no' # yes\n# last" = {" yes", " last"} := by decide

/-! ## Passing a text -/

/-- Some characters lead from one place to another, past some comments. -/
def Reads (p : Place) (s : List Char) (q : Place) (cs : Multiset String) : Prop :=
  ∀ rest, scan p (s ++ rest) = cs + scan q rest

/-- No quotation mark comes first. -/
def Open : List Char → Prop
  | [] => True
  | c :: s => if c = '\r' then Open s else c ≠ '"' ∧ c ≠ '\''

/-- Some characters lead outside, past some comments, unless a mark follows. -/
def Settles (p : Place) (s : List Char) (cs : Multiset String) : Prop :=
  ∀ rest, Open rest → scan p (s ++ rest) = cs + scan .outside rest

/-- Neither a number sign nor a quotation mark. -/
def IsPlain (c : Char) : Prop :=
  c ≠ '#' ∧ c ≠ '"' ∧ c ≠ '\''

instance (c : Char) : Decidable (IsPlain c) :=
  inferInstanceAs (Decidable (_ ∧ _))

instance (s : List Char) : Decidable (∀ c ∈ s, IsPlain c) := List.decidableBAll _ s

section Passing

variable {p q r : Place} {s t : List Char} {cs ds : Multiset String} {c mark : Char}

theorem scan_cons (visible : c ≠ '\r') :
    scan p (c :: s) = (if c = '\n' then p.ended else 0) + scan (p.next c) s := by
  rw [scan, if_neg visible]

theorem Reads.nil (p : Place) : Reads p [] p 0 := by
  intro rest
  rw [List.nil_append, zero_add]

theorem Reads.append (first : Reads p s q cs) (second : Reads q t r ds) :
    Reads p (s ++ t) r (cs + ds) := by
  intro rest
  rw [List.append_assoc, first, second, add_assoc]

theorem Reads.append_settles (first : Reads p s q cs) (second : Settles q t ds) :
    Settles p (s ++ t) (cs + ds) := by
  intro rest follows
  rw [List.append_assoc, first, second _ follows, add_assoc]

theorem Reads.before (first : Reads p s q 0) (second : Reads q t r cs) : Reads p (s ++ t) r cs := by
  simpa using first.append second

theorem Reads.before_settles (first : Reads p s q 0) (second : Settles q t cs) :
    Settles p (s ++ t) cs := by
  simpa using first.append_settles second

theorem Reads.settles (reads : Reads p s .outside cs) : Settles p s cs :=
  fun rest _ => reads rest

theorem reads_one (quiet : p.ended = 0) (visible : c ≠ '\r') : Reads p [c] (p.next c) 0 := by
  intro rest
  rw [List.singleton_append, scan_cons visible, quiet, ite_self]

/-- Characters that do not change the place. -/
theorem reads_stay (quiet : p.ended = 0) (stay : ∀ c ∈ s, c ≠ '\r' → p.next c = p) : Reads p s p 0 := by
  induction s with
  | nil => exact .nil p
  | cons c s ih =>
    intro rest
    have more := ih (fun c member => stay c (List.mem_cons_of_mem _ member)) rest
    by_cases skipped : c = '\r'
    · rw [List.cons_append, scan, if_pos skipped, more]
    · rw [List.cons_append, scan_cons skipped, quiet, ite_self, zero_add, stay c List.mem_cons_self skipped,
        more]

theorem IsPlain.start_eq (plain : IsPlain c) : Place.start c = .outside := by
  rw [Place.start, if_neg plain.1, if_neg (not_or.mpr plain.2)]

theorem reads_plain (plain : ∀ c ∈ s, IsPlain c) : Reads .outside s .outside 0 :=
  reads_stay rfl fun c member _ => (plain c member).start_eq

theorem open_cons (first : c ≠ '"' ∧ c ≠ '\'') (more : c = '\r' → Open s) : Open (c :: s) := by
  rw [Open]
  split
  · exact more ‹_›
  · exact first

theorem open_plain (plain : ∀ c ∈ s, IsPlain c) : Open s := by
  induction s with
  | nil => trivial
  | cons c s ih =>
    exact open_cons (plain c List.mem_cons_self).2 fun _ =>
      ih fun c member => plain c (List.mem_cons_of_mem _ member)

theorem Open.append (first : Open s) (second : Open t) : Open (s ++ t) := by
  induction s with
  | nil => exact second
  | cons c s ih =>
    rw [List.cons_append]
    by_cases skipped : c = '\r'
    · rw [Open, if_pos skipped] at first ⊢
      exact ih first
    · rw [Open, if_neg skipped] at first ⊢
      exact first

theorem Settles.append (first : Settles p s cs) (follows : Open t) (second : Settles .outside t ds) :
    Settles p (s ++ t) (cs + ds) := by
  intro rest more
  rw [List.append_assoc, first _ (follows.append more), second _ more, add_assoc]

theorem Settles.append_reads (first : Settles p s cs) (follows : ∀ rest, Open (t ++ rest))
    (second : Reads .outside t q ds) : Reads p (s ++ t) q (cs + ds) := by
  intro rest
  rw [List.append_assoc, first _ (follows rest), second, add_assoc]

theorem Settles.scan_eq (settles : Settles p s cs) : scan p s = cs := by
  have whole := settles [] trivial
  rwa [List.append_nil, scan, Place.ended, add_zero] at whole

theorem Reads.scan_eq (reads : Reads p s .outside cs) : scan p s = cs := reads.settles.scan_eq

/-- A place where a quoted text is over, unless it goes on with a mark. -/
def Place.Closed (p : Place) : Prop :=
  p.ended = 0 ∧ ∀ c, c ≠ '"' ∧ c ≠ '\'' → p.next c = .start c

theorem Place.Closed.scan_eq (closed : p.Closed) (follows : Open s) : scan p s = scan .outside s := by
  induction s with
  | nil => rw [scan, scan, closed.1, Place.ended]
  | cons c s ih =>
    by_cases skipped : c = '\r'
    · rw [Open, if_pos skipped] at follows
      rw [scan, scan, if_pos skipped, if_pos skipped, ih follows]
    · rw [Open, if_neg skipped] at follows
      rw [scan_cons skipped, scan_cons skipped, closed.1, closed.2 c follows, Place.ended, Place.next]

theorem Reads.closes (reads : Reads p s q cs) (closed : q.Closed) : Settles p s cs := by
  intro rest follows
  rw [reads, closed.scan_eq follows]

/-- Carriage returns make no difference. -/
theorem scan_filter (p : Place) (s rest : List Char) :
    scan p (s.filter (· ≠ '\r') ++ rest) = scan p (s ++ rest) := by
  induction s generalizing p with
  | nil => rfl
  | cons c s ih =>
    by_cases skipped : c = '\r'
    · rw [List.filter_cons_of_neg (by simpa using skipped), List.cons_append, ih, scan, if_pos skipped]
    · rw [List.filter_cons_of_pos (by simpa using skipped), List.cons_append, List.cons_append,
        scan_cons skipped, scan_cons skipped, ih]

end Passing

/-! ## The parts of a document -/

def Trivia.comments (t : Trivia) : Multiset String :=
  Toml.comments (t.before.getD "") + Toml.comments (t.after.getD "")

namespace Item

/-- Whether an item stands behind its key. Tables with headers and those that dotted keys make do not. -/
def isPair : Item → Bool
  | .value _ _ _ => true
  | .inline _ braces _ => !braces.dotted
  | .table _ _ => false
  | .tables _ => false

mutual

/-- The comments in an item and around it. -/
def comments : Item → Multiset String
  | .value _ spelling around => around.comments + Toml.comments (spelling.getD "")
  | .inline entries braces around =>
    around.comments + entriesComments entries + Toml.comments braces.trailing
  | .table entries heading => heading.around.comments + entriesComments entries
  | .tables elements => elementsComments elements

def entriesComments : List (Key × Item) → Multiset String
  | [] => 0
  | (k, i) :: rest =>
    (if isPair i then k.around.comments else 0) + comments i + entriesComments rest

def elementsComments : List Item → Multiset String
  | [] => 0
  | i :: rest => comments i + elementsComments rest

end

end Item

namespace Entries

/-- The comments of one entry, with those around its key. -/
def comment (e : Key × Item) : Multiset String :=
  (if e.2.isPair then e.1.around.comments else 0) + e.2.comments

/-- The comments that setting an item at a path replaces: those of the entry at the end of the path, or
of the first one on the way that is no table. Between braces a key on the way stays. -/
def replaced (braced : Bool) (entries : Entries) : List String → Multiset String
  | [] => 0
  | [last] => ((entries.find? (·.1.name = last)).map comment).getD 0
  | name :: path =>
    match entries.find? (·.1.name = name) with
    | some (_, .inline old _ _) => replaced true old path
    | some (_, .table old _) => replaced braced old path
    | some (k, i) => if braced then i.comments else comment (k, i)
    | none => 0

theorem comments_eq_sum (entries : Entries) : Item.entriesComments entries = (entries.map comment).sum := by
  induction entries with
  | nil => rfl
  | cons e rest ih => rw [Item.entriesComments, ih, List.map_cons, List.sum_cons, comment]

end Entries

theorem Item.elementsComments_eq_sum (elements : List Item) :
    Item.elementsComments elements = (elements.map Item.comments).sum := by
  induction elements with
  | nil => rfl
  | cons i rest ih => rw [Item.elementsComments, ih, List.map_cons, List.sum_cons]

def Document.comments (d : Document) : Multiset String :=
  Item.entriesComments d.entries + Toml.comments d.trailing

end LinterClient.Toml
