import LinterClient.Proofs.Toml.Comments.Quoted
import LinterClient.Proofs.Toml.Reading

/-!
Documents whose comments can be read off their text.

Blanks and comments stand where a reader is outside of all quoted texts, keys and values leave the reader
there, and a comment that is not over ends with its line.
-/

namespace LinterClient.Toml

/-! ## Blanks and comments -/

/-- Blanks, comments and line breaks that leave a reader outside. -/
structure Gap (s : List Char) : Prop where
  reads : Reads .outside s .outside (scan .outside s)
  opens : Open s

/-- The same at the end of a line, where a comment may not be over yet. -/
structure Tail (s : List Char) : Prop where
  reads : Reads .outside (s ++ ['\n']) .outside (scan .outside s)
  opens : Open s

def Blank (s : List Char) : Prop := ∀ c ∈ s, c = ' ' ∨ c = '\t'

section Gaps

variable {s t : List Char}

theorem isPlain_of_blank {c : Char} (blank : c = ' ' ∨ c = '\t') : IsPlain c := by
  rcases blank with rfl | rfl <;> decide

theorem Blank.reads (blank : Blank s) : Reads .outside s .outside 0 :=
  reads_plain fun c member => isPlain_of_blank (blank c member)

theorem Blank.opens (blank : Blank s) : Open s :=
  open_plain fun c member => isPlain_of_blank (blank c member)

theorem Blank.scan_eq (blank : Blank s) : scan .outside s = 0 := blank.reads.scan_eq

theorem Blank.gap (blank : Blank s) : Gap s := ⟨by simpa only [blank.scan_eq] using blank.reads, blank.opens⟩

theorem blank_nil : Blank [] := by simp [Blank]

theorem gap_nil : Gap [] := blank_nil.gap

theorem Gap.append (first : Gap s) (second : Gap t) : Gap (s ++ t) := by
  have reads := first.reads.append second.reads
  exact ⟨by rw [reads.scan_eq]; exact reads, first.opens.append second.opens⟩

theorem Gap.scan_append (gap : Gap s) (t : List Char) :
    scan .outside (s ++ t) = scan .outside s + scan .outside t := gap.reads t

theorem reads_break : Reads .outside ['\n'] .outside 0 := reads_one rfl (by decide)

theorem Gap.tail (gap : Gap s) : Tail s := by
  refine ⟨?_, gap.opens⟩
  simpa using gap.reads.append reads_break

theorem Reads.filter {p q : Place} {cs : Multiset String} (reads : Reads p s q cs) :
    Reads p (s.filter (· ≠ '\r')) q cs :=
  fun rest => by rw [scan_filter, reads]

theorem Settles.filter {p : Place} {cs : Multiset String} (settles : Settles p s cs) :
    Settles p (s.filter (· ≠ '\r')) cs :=
  fun rest follows => by rw [scan_filter, settles rest follows]

theorem scan_filter_eq (p : Place) (s : List Char) : scan p (s.filter (· ≠ '\r')) = scan p s := by
  have same := scan_filter p s []
  rwa [List.append_nil, List.append_nil] at same

theorem Open.filter (opens : Open s) : Open (s.filter (· ≠ '\r')) := by
  induction s with
  | nil => trivial
  | cons c s ih =>
    by_cases skipped : c = '\r'
    · rw [Open, if_pos skipped] at opens
      rw [List.filter_cons_of_neg (by simpa using skipped)]
      exact ih opens
    · rw [Open, if_neg skipped] at opens
      rw [List.filter_cons_of_pos (by simpa using skipped), Open, if_neg skipped]
      exact opens

theorem Gap.filter (gap : Gap s) : Gap (s.filter (· ≠ '\r')) :=
  ⟨by rw [scan_filter_eq]; exact gap.reads.filter, gap.opens.filter⟩

theorem Tail.filter (tail : Tail s) : Tail (s.filter (· ≠ '\r')) := by
  refine ⟨?_, tail.opens.filter⟩
  have reads := tail.reads.filter
  rw [scan_filter_eq]
  rwa [List.filter_append] at reads

end Gaps

/-! ## Keys, items and documents -/

/-- What stands around a value, on a line or between braces. -/
structure Trivia.Fits (braced : Bool) (t : Trivia) : Prop where
  before : Gap (t.before.getD "").toList
  after : Tail (t.after.getD "").toList
  inside : braced = true → Gap (t.after.getD "").toList

theorem Trivia.fits_usual (braced : Bool) : Trivia.usual.Fits braced :=
  ⟨gap_nil, gap_nil.tail, fun _ => gap_nil⟩

/-- There are only blanks around something. -/
structure Trivia.Blank (t : Trivia) : Prop where
  before : Toml.Blank (t.before.getD "").toList
  after : Toml.Blank (t.after.getD "").toList

theorem Trivia.blank_usual : Trivia.usual.Blank := ⟨blank_nil, blank_nil⟩

/-- A key within a path. -/
structure Key.Fits (k : Key) : Prop where
  text : Settles .outside k.text.toList 0
  inside : k.inside.Blank

/-- What stands around a whole path, before the equals sign of a pair. -/
structure Key.Leads (k : Key) : Prop where
  before : Gap (k.around.before.getD "").toList
  after : Blank (k.around.after.getD "").toList

namespace Item

/-- A table that was made only to hold tables; it has no lines of its own. -/
def Hidden (i : Item) : Prop :=
  ∃ entries, i = .table entries .new ∧
    ∀ e ∈ entries, ∃ below heading, e.2 = .table below heading ∧ heading.form ≠ .dotted

end Item

/-- The key of an entry can be printed. In a document that was edited, a hidden table may have more than
blanks around its key. -/
structure Entries.KeyFits (edited : Bool) (e : Key × Item) : Prop where
  fits : e.1.Fits
  leads : e.2.isPair = true → e.1.Leads
  blank : e.2.isPair = false → e.1.around.Blank ∨ edited = true ∧ e.2.Hidden

/-- An item whose comments can be read off its text, on lines or between braces. -/
inductive Item.Legible (edited : Bool) : Bool → Item → Prop
  | value {braced : Bool} {v : Value} {spelling : Option String} {around : Trivia}
    (text : Settles .outside (spelling.getD v.text).toList (Toml.comments (spelling.getD "")))
    (fits : around.Fits braced) : Legible edited braced (.value v spelling around)
  | inline {braced : Bool} {entries : Entries} {braces : Braces} {around : Trivia}
    (keys : ∀ e ∈ entries, Entries.KeyFits edited e) (items : ∀ e ∈ entries, Legible edited true e.2)
    (trailing : Gap braces.trailing.toList) (fits : around.Fits braced)
    (dotted : braces.dotted = true → around.comments = 0 ∧ Toml.comments braces.trailing = 0) :
    Legible edited braced (.inline entries braces around)
  | table {entries : Entries} {heading : Heading}
    (keys : ∀ e ∈ entries, Entries.KeyFits edited e) (items : ∀ e ∈ entries, Legible edited false e.2)
    (fits : heading.around.Fits false) (headed : heading.form ≠ .header → heading.around = .usual) :
    Legible edited false (.table entries heading)
  | tables {elements : List Item}
    (headed : ∀ i ∈ elements, ∃ entries heading, i = .table entries heading ∧ heading.form = .header)
    (items : ∀ i ∈ elements, Legible edited false i) : Legible edited false (.tables elements)

/-- Entries whose comments can be read off their text. -/
structure Entries.Legible (edited braced : Bool) (entries : Entries) : Prop where
  keys : ∀ e ∈ entries, Entries.KeyFits edited e
  items : ∀ e ∈ entries, e.2.Legible edited braced

namespace Entries

theorem KeyFits.weaken {e : Key × Item} (fits : KeyFits false e) : KeyFits true e :=
  ⟨fits.fits, fits.leads, fun other => .inl (by simpa using fits.blank other)⟩

end Entries

theorem Item.Legible.weaken {braced : Bool} {i : Item} (legible : i.Legible false braced) :
    i.Legible true braced := by
  induction legible with
  | value text fits => exact .value text fits
  | inline keys items trailing fits dotted ih =>
    exact .inline (fun e member => (keys e member).weaken) ih trailing fits dotted
  | table keys items fits headed ih => exact .table (fun e member => (keys e member).weaken) ih fits headed
  | tables headed items ih => exact .tables headed ih

theorem Entries.Legible.weaken {braced : Bool} {entries : Entries} (legible : entries.Legible false braced) :
    entries.Legible true braced :=
  ⟨fun e member => (legible.keys e member).weaken, fun e member => (legible.items e member).weaken⟩

/-! ## Putting documents together -/

namespace Entries

variable {entries : Entries} {edited braced : Bool} {name : String} {k : Key} {i j : Item}

/-- An entry among different ones: another item in its place leaves the others as they are. -/
theorem Distinct.split (distinct : entries.Distinct) (found : entries.get? name = some i) :
    ∃ front k back, entries = front ++ (k, i) :: back ∧ k.name = name ∧
      (∀ e ∈ front ++ back, e.1.name ≠ name) := by
  obtain ⟨k, rfl, member⟩ := mem_of_get? found
  obtain ⟨front, back, rfl⟩ := List.append_of_mem member
  refine ⟨front, k, back, rfl, rfl, fun e other => ?_⟩
  rw [Distinct, List.map_append, List.map_cons, List.nodup_middle, List.nodup_cons, ← List.map_append]
    at distinct
  exact fun same => distinct.1 (List.mem_map.mpr ⟨e, other, same⟩)

theorem map_split {front back : Entries} (others : ∀ e ∈ front ++ back, e.1.name ≠ k.name)
    (f : Key × Item → Key × Item) : ((front ++ (k, i) :: back).map fun e =>
      if e.1.name = k.name then f e else e) = front ++ f (k, i) :: back := by
  have kept (part : Entries) (within : ∀ e ∈ part, e.1.name ≠ k.name) :
      (part.map fun e => if e.1.name = k.name then f e else e) = part :=
    (List.map_congr_left fun e member => if_neg (within e member)).trans (List.map_id _)
  have first := kept front fun e member => others e (List.mem_append_left _ member)
  have last := kept back fun e member => others e (List.mem_append_right _ member)
  rw [List.map_append, List.map_cons, first, last, if_pos rfl]

theorem replace_split {front back : Entries} (others : ∀ e ∈ front ++ back, e.1.name ≠ k.name) (j : Item) :
    (front ++ (k, i) :: back).replace k.name j = front ++ (k, j) :: back :=
  map_split others fun e => (e.1, j)

theorem comments_append (front back : Entries) :
    Item.entriesComments (front ++ back) = Item.entriesComments front + Item.entriesComments back := by
  simp only [comments_eq_sum, List.map_append, List.sum_append]

theorem comments_cons (e : Key × Item) (rest : Entries) :
    Item.entriesComments (e :: rest) = comment e + Item.entriesComments rest := by
  simp only [comments_eq_sum, List.map_cons, List.sum_cons]

theorem comments_one (e : Key × Item) : Item.entriesComments [e] = comment e := by
  rw [comments_cons]
  exact add_zero _

/-- Another item in the place of one brings its own comments. -/
theorem Distinct.comments_replace (distinct : entries.Distinct) (found : entries.get? name = some i)
    (pair : j.isPair = i.isPair) {more : Multiset String} (comments : j.comments = i.comments + more) :
    Item.entriesComments (entries.replace name j) = Item.entriesComments entries + more := by
  obtain ⟨front, k, back, rfl, rfl, others⟩ := distinct.split found
  simp only [replace_split others, comments_append, comments_cons, comment, pair, comments]
  simp only [add_assoc, add_left_comm, add_comm]

theorem legible_nil (edited braced : Bool) : Legible edited braced [] := ⟨by simp, by simp⟩

theorem Legible.append (legible : entries.Legible edited braced) (key : KeyFits edited (k, i))
    (item : i.Legible edited braced) : Legible edited braced (entries ++ [(k, i)]) where
  keys e member := by
    rcases List.mem_append.mp member with old | last
    · exact legible.keys e old
    · rw [List.mem_singleton.mp last]
      exact key
  items e member := by
    rcases List.mem_append.mp member with old | last
    · exact legible.items e old
    · rw [List.mem_singleton.mp last]
      exact item

/-- An entry takes the place of another. -/
theorem Legible.swap {front back : Entries} {k' : Key} (legible : Legible edited braced (front ++ (k, i) :: back))
    (key : KeyFits edited (k', j)) (item : j.Legible edited braced) :
    Legible edited braced (front ++ (k', j) :: back) := by
  refine ⟨fun e member => ?_, fun e member => ?_⟩ <;> rcases List.mem_append.mp member with before | member
  · exact legible.keys e (List.mem_append_left _ before)
  · rcases List.mem_cons.mp member with rfl | after
    · exact key
    · exact legible.keys e (by simp [after])
  · exact legible.items e (List.mem_append_left _ before)
  · rcases List.mem_cons.mp member with rfl | after
    · exact item
    · exact legible.items e (by simp [after])

theorem Legible.replace (legible : entries.Legible edited braced) (name : String)
    (keys : ∀ k, (k, i) ∈ entries → KeyFits edited (k, j)) (found : entries.get? name = some i)
    (distinct : entries.Distinct) (item : j.Legible edited braced) :
    (entries.replace name j).Legible edited braced := by
  obtain ⟨front, k, back, rfl, rfl, others⟩ := distinct.split found
  rw [replace_split others]
  exact legible.swap (keys k (by simp)) item

end Entries

end LinterClient.Toml
