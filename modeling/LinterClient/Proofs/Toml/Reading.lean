import LinterClient.Proofs.Toml.Shown

/-!
Documents that were read.

Each of their tables has its names once, and a table that has no header of its own has something in it.
So all of such a document is in its text.
-/

namespace LinterClient.Toml

/-- An item as it is read: tables are no plain values, names are different, and a table that shows only as
far as something is in it is not empty. -/
inductive Item.Sound : Item → Prop
  | value {v : Value} (spelling : Option String) (around : Trivia) (plain : ∀ members, v ≠ .table members) :
    Sound (.value v spelling around)
  | inline {entries : Entries} {braces : Braces} (around : Trivia) (distinct : entries.Distinct)
    (items : ∀ e ∈ entries, Sound e.2) (filled : braces.dotted = true → entries ≠ []) :
    Sound (.inline entries braces around)
  | table {entries : Entries} {heading : Heading} (distinct : entries.Distinct)
    (items : ∀ e ∈ entries, Sound e.2) (filled : heading.form ≠ .header → entries ≠ []) :
    Sound (.table entries heading)
  | tables {elements : List Item} (headed : ∀ i ∈ elements, ∃ entries heading, i = .table entries heading)
    (items : ∀ i ∈ elements, Sound i) : Sound (.tables elements)

structure Entries.Sound (entries : Entries) : Prop where
  distinct : entries.Distinct
  items : ∀ e ∈ entries, e.2.Sound

namespace Item

theorem entriesData_eq_map (entries : Entries) :
    entriesData entries = entries.map fun e => (e.1.name, e.2.data) := by
  induction entries with
  | nil => rfl
  | cons head rest ih => rw [entriesData, ih, List.map_cons]

theorem entriesShown_of_shown {entries : Entries} (shown : ∀ e ∈ entries, e.2.shown? = some e.2.data) :
    entriesShown entries = entriesData entries := by
  induction entries with
  | nil => rfl
  | cons head rest ih =>
    obtain ⟨k, i⟩ := head
    have first : i.shown? = some i.data := shown (k, i) List.mem_cons_self
    simp only [entriesShown, first, entriesData, ih fun e member => shown e (List.mem_cons_of_mem _ member)]

theorem isEmpty_entriesData (entries : Entries) : (entriesData entries).isEmpty = true ↔ entries = [] := by
  rw [entriesData_eq_map, List.isEmpty_iff, List.map_eq_nil_iff]

theorem entriesShown_of_table {entries : Entries} {heading : Heading}
    (shown : (Item.table entries heading).shown? = some (Item.table entries heading).data) :
    entriesShown entries = entriesData entries := by
  rw [shown?] at shown
  split at shown
  · cases shown
  · simpa [data] using shown

theorem elementsShown_of_shown {elements : List Item}
    (headed : ∀ i ∈ elements, ∃ entries heading, i = .table entries heading)
    (shown : ∀ i ∈ elements, i.shown? = some i.data) : elementsShown elements = elementsData elements := by
  induction elements with
  | nil => rfl
  | cons i rest ih =>
    obtain ⟨entries, heading, rfl⟩ := headed i List.mem_cons_self
    have members := entriesShown_of_table (shown _ List.mem_cons_self)
    have more := ih (fun i member => headed i (List.mem_cons_of_mem _ member))
      (fun i member => shown i (List.mem_cons_of_mem _ member))
    rw [elementsShown, elementsData, data, members, more]

/-- All of an item that was read is in the text. -/
theorem Sound.shown?_eq {i : Item} (sound : i.Sound) : i.shown? = some i.data := by
  induction sound with
  | value => rfl
  | @inline entries braces around distinct items filled ih =>
    have visible : ¬ (braces.dotted = true ∧ (entriesData entries).isEmpty = true) := by
      rw [isEmpty_entriesData]
      exact fun hidden => filled hidden.1 hidden.2
    rw [shown?, entriesShown_of_shown ih, if_neg visible, data]
  | @table entries heading distinct items filled ih =>
    have visible : ¬ (heading.form ≠ .header ∧ (entriesData entries).isEmpty = true) := by
      rw [isEmpty_entriesData]
      exact fun hidden => filled hidden.1 hidden.2
    rw [shown?, entriesShown_of_shown ih, if_neg visible, data]
  | tables headed items ih => rw [shown?, elementsShown_of_shown headed ih, data]

end Item

/-- The settings in a document that was read are those in its text. -/
theorem Entries.Sound.toJson?_eq {d : Document} (sound : d.entries.Sound) :
    d.toJson? = d.entries.members? := by
  have data := Item.entriesShown_of_shown fun e member => (sound.items e member).shown?_eq
  rw [Entries.members?, data, Item.entriesData_eq_map]
  rfl

/-! ## Putting documents together -/

namespace Entries

variable {entries : Entries}

theorem sound_nil : Sound [] := ⟨List.nodup_nil, by simp⟩

theorem Sound.get? (sound : entries.Sound) {name : String} {i : Item} (found : entries.get? name = some i) :
    i.Sound := by
  obtain ⟨k, -, member⟩ := mem_of_get? found
  exact sound.items _ member

theorem Sound.of_table {heading : Heading} (sound : (Item.table entries heading).Sound) : entries.Sound := by
  cases sound with
  | table distinct items filled => exact ⟨distinct, items⟩

theorem Sound.of_inline {braces : Braces} {around : Trivia}
    (sound : (Item.inline entries braces around).Sound) : entries.Sound := by
  cases sound with
  | inline around distinct items filled => exact ⟨distinct, items⟩

theorem Distinct.append (distinct : entries.Distinct) {k : Key} (i : Item)
    (fresh : entries.get? k.name = none) : Distinct (entries ++ [(k, i)]) := by
  have absent := (get?_eq_none_iff _ _).mp fresh
  rw [Distinct, List.map_append, List.map_singleton, List.nodup_append]
  refine ⟨distinct, List.pairwise_singleton _ _, ?_⟩
  intro name member other last
  rw [List.mem_singleton.mp last]
  rintro rfl
  exact absent member

theorem Distinct.map (distinct : entries.Distinct) {f : Key × Item → Key × Item}
    (names : ∀ e, (f e).1.name = e.1.name) : Distinct (entries.map f) := by
  have kept : (entries.map f).map (·.1.name) = entries.map (·.1.name) := by
    rw [List.map_map]
    exact List.map_congr_left fun e _ => names e
  rw [Distinct, kept]
  exact distinct

theorem Distinct.erase (distinct : entries.Distinct) (name : String) : (entries.erase name).Distinct :=
  distinct.sublist (List.filter_sublist.map _)

theorem Sound.append (sound : entries.Sound) {k : Key} {i : Item} (fresh : entries.get? k.name = none)
    (item : i.Sound) : Sound (entries ++ [(k, i)]) where
  distinct := sound.distinct.append i fresh
  items e member := by
    rcases List.mem_append.mp member with old | last
    · exact sound.items e old
    · rw [List.mem_singleton.mp last]
      exact item

theorem Sound.replace (sound : entries.Sound) (name : String) {i : Item} (item : i.Sound) :
    (entries.replace name i).Sound where
  distinct := sound.distinct.map fun e => by split <;> rfl
  items e member := by
    obtain ⟨old, place, rfl⟩ := List.mem_map.mp member
    split
    · exact item
    · exact sound.items old place

theorem Sound.erase (sound : entries.Sound) (name : String) : (entries.erase name).Sound where
  distinct := sound.distinct.erase name
  items e member := sound.items e (List.mem_filter.mp member).1

theorem replace_ne_nil {name : String} {i old : Item} (found : entries.get? name = some old) :
    entries.replace name i ≠ [] := by
  intro empty
  rw [List.map_eq_nil_iff.mp empty] at found
  cases found

/-- A line adds an entry to sound entries, in the tables that it goes through. -/
theorem Sound.addLine {key : Key} {item : Item} (itemSound : item.Sound) {dotted inside : Bool}
    {path : List Key} {new : Entries} (sound : entries.Sound)
    (added : entries.addLine key item dotted inside path = some new) : new.Sound ∧ new ≠ [] := by
  induction path generalizing entries dotted inside new with
  | nil =>
    simp only [Entries.addLine, Option.ite_none_right_eq_some, Option.some.injEq] at added
    obtain ⟨⟨-, fresh⟩, rfl⟩ := added
    exact ⟨sound.append fresh itemSound, by simp⟩
  | cons k path ih =>
    simp only [Entries.addLine] at added
    split at added
    · rename_i fresh
      obtain ⟨below, more, rfl⟩ := Option.map_eq_some_iff.mp added
      obtain ⟨belowSound, filled⟩ := ih sound_nil more
      refine ⟨sound.append fresh ?_, by simp⟩
      exact .table belowSound.distinct belowSound.items fun _ => filled
    · rename_i old heading found
      split at added
      · cases added
      · obtain ⟨below, more, rfl⟩ := Option.map_eq_some_iff.mp added
        obtain ⟨belowSound, filled⟩ := ih (Sound.of_table (sound.get? found)) more
        refine ⟨sound.replace _ ?_, replace_ne_nil found⟩
        exact .table belowSound.distinct belowSound.items fun _ => filled
    · cases added

/-- So does a pair between braces. -/
theorem Sound.addPair {key : Key} {item : Item} (itemSound : item.Sound) {dotted inside : Bool}
    {path : List Key} {new : Entries} (sound : entries.Sound)
    (added : entries.addPair key item dotted inside path = some new) : new.Sound ∧ new ≠ [] := by
  induction path generalizing entries dotted inside new with
  | nil =>
    simp only [Entries.addPair, Option.ite_none_right_eq_some, Option.some.injEq] at added
    obtain ⟨⟨-, fresh⟩, rfl⟩ := added
    exact ⟨sound.append fresh itemSound, by simp⟩
  | cons k path ih =>
    simp only [Entries.addPair] at added
    split at added
    · rename_i fresh
      obtain ⟨below, more, rfl⟩ := Option.map_eq_some_iff.mp added
      obtain ⟨belowSound, filled⟩ := ih sound_nil more
      refine ⟨sound.append fresh ?_, by simp⟩
      exact .inline _ belowSound.distinct belowSound.items fun _ => filled
    · rename_i old braces around found
      split at added
      · obtain ⟨below, more, rfl⟩ := Option.map_eq_some_iff.mp added
        obtain ⟨belowSound, filled⟩ := ih (Sound.of_inline (sound.get? found)) more
        refine ⟨sound.replace _ ?_, replace_ne_nil found⟩
        exact .inline _ belowSound.distinct belowSound.items fun _ => filled
      · cases added
    · cases added

theorem Sound.addLines {lines : List Line} (items : ∀ l ∈ lines, l.item.Sound) {new : Entries}
    (sound : entries.Sound) (added : entries.addLines lines = some new) : new.Sound := by
  induction lines generalizing entries with
  | nil =>
    cases added
    exact sound
  | cons l rest ih =>
    simp only [Entries.addLines, List.foldlM_cons, Option.bind_eq_bind, Option.bind_eq_some_iff] at added
    obtain ⟨next, first, more⟩ := added
    refine ih (fun l member => items l (List.mem_cons_of_mem _ member)) ?_ more
    exact (sound.addLine (items l List.mem_cons_self) first).1

section Sections

variable {s : Section} {position : Nat} {new : Entries} (lines : ∀ l ∈ s.lines, l.item.Sound)

include lines

theorem Sound.addTable (sound : entries.Sound) (added : entries.addTable s position = some new) :
    new.Sound ∧ new ≠ [] := by
  simp only [Entries.addTable, Option.bind_eq_bind] at added
  split at added
  · rename_i fresh
    obtain ⟨below, more, same⟩ := Option.bind_eq_some_iff.mp added
    cases same
    have belowSound := sound_nil.addLines lines more
    refine ⟨sound.append fresh ?_, by simp⟩
    exact .table belowSound.distinct belowSound.items (by simp)
  · rename_i old position' around found
    obtain ⟨below, more, same⟩ := Option.bind_eq_some_iff.mp added
    cases same
    have belowSound := (Sound.of_table (sound.get? found)).addLines lines more
    have gone : (entries.erase s.key.name).get? s.key.name = none := by
      rw [get?_eq_none_iff]
      simp [Entries.erase]
    refine ⟨(sound.erase _).append gone ?_, by simp⟩
    exact .table belowSound.distinct belowSound.items (by simp)
  · cases added

theorem Sound.addElement (sound : entries.Sound) (added : entries.addElement s position = some new) :
    new.Sound ∧ new ≠ [] := by
  simp only [Entries.addElement, Option.bind_eq_bind, Option.bind_eq_some_iff] at added
  obtain ⟨below, more, added⟩ := added
  have belowSound := sound_nil.addLines lines more
  have element : (Item.table below ⟨.header, some position, s.around⟩).Sound :=
    .table belowSound.distinct belowSound.items (by simp)
  split at added
  · rename_i fresh
    cases added
    refine ⟨sound.append fresh ?_, by simp⟩
    exact .tables (by simp) (by simpa using element)
  · rename_i elements found
    cases added
    refine ⟨sound.replace _ ?_, replace_ne_nil found⟩
    cases sound.get? found with
    | tables headed items =>
      refine .tables ?_ ?_ <;> intro i member <;>
        rcases List.mem_append.mp member with old | last
      · exact headed i old
      · exact ⟨_, _, List.mem_singleton.mp last⟩
      · exact items i old
      · rw [List.mem_singleton.mp last]
        exact element
  · cases added

/-- A section adds a table or an element of an array, below the tables on its path. -/
theorem Sound.addSection {path : List Key} (sound : entries.Sound)
    (added : entries.addSection s position path = some new) : new.Sound ∧ new ≠ [] := by
  induction path generalizing entries new with
  | nil =>
    simp only [Entries.addSection] at added
    split at added
    · exact sound.addElement lines added
    · exact sound.addTable lines added
  | cons k path ih =>
    simp only [Entries.addSection] at added
    split at added
    · rename_i fresh
      obtain ⟨below, more, rfl⟩ := Option.map_eq_some_iff.mp added
      obtain ⟨belowSound, filled⟩ := ih sound_nil more
      refine ⟨sound.append fresh ?_, by simp⟩
      exact .table belowSound.distinct belowSound.items fun _ => filled
    · rename_i old heading found
      obtain ⟨below, more, rfl⟩ := Option.map_eq_some_iff.mp added
      obtain ⟨belowSound, filled⟩ := ih (Sound.of_table (sound.get? found)) more
      refine ⟨sound.replace _ ?_, replace_ne_nil found⟩
      exact .table belowSound.distinct belowSound.items fun _ => filled
    · rename_i elements found
      split at added
      · rename_i old heading before reversed
        obtain ⟨below, more, rfl⟩ := Option.map_eq_some_iff.mp added
        have whole : elements = (.table old heading :: before).reverse := by
          rw [← reversed, List.reverse_reverse]
        refine ⟨sound.replace _ ?_, replace_ne_nil found⟩
        cases sound.get? found with
        | tables headed items =>
          have last := items (.table old heading) (by simp [whole])
          obtain ⟨belowSound, filled⟩ := ih (Sound.of_table last) more
          refine .tables ?_ ?_ <;> intro i member <;>
            rcases List.mem_cons.mp (List.mem_reverse.mp member) with rfl | old
          · exact ⟨_, _, rfl⟩
          · exact headed i (by simp [whole, old])
          · exact .table belowSound.distinct belowSound.items fun _ => filled
          · exact items i (by simp [whole, old])
      · cases added
    · cases added

end Sections

end Entries

theorem Document.sound_of_sections {lines : List Line} {sections : List Section} {trailing : String}
    {d : Document} (first : ∀ l ∈ lines, l.item.Sound)
    (below : ∀ s ∈ sections, ∀ l ∈ s.lines, l.item.Sound)
    (made : Document.ofSections? lines sections trailing = some d) : d.entries.Sound := by
  simp only [Document.ofSections?, Option.bind_eq_bind, Option.bind_eq_some_iff] at made
  obtain ⟨root, rooted, entries, added, same⟩ := made
  cases same
  have rootSound := Entries.sound_nil.addLines first rooted
  clear rooted
  -- one section after the other, whatever their numbers
  have build : ∀ (numbered : List (Section × Nat)) (start : Entries),
      (∀ p ∈ numbered, ∀ l ∈ p.1.lines, l.item.Sound) → start.Sound →
      numbered.foldlM (fun acc p => acc.addSection p.1 (p.2 + 1) p.1.path) start = some entries →
      entries.Sound := by
    intro numbered
    induction numbered with
    | nil =>
      intro start _ sound done
      cases done
      exact sound
    | cons p rest ih =>
      intro start items sound done
      simp only [List.foldlM_cons, Option.bind_eq_bind, Option.bind_eq_some_iff] at done
      obtain ⟨next, one, more⟩ := done
      refine ih next (fun p member => items p (List.mem_cons_of_mem _ member)) ?_ more
      exact (sound.addSection (items p List.mem_cons_self) one).1
  refine build _ root (fun p member => ?_) rootSound added
  exact below p.1 (List.fst_mem_of_mem_zipIdx member)

/-! ## Parsing -/

namespace Parser

theorem sound_setAround (around : Trivia) {i : Item} (sound : i.Sound) : (setAround around i).Sound := by
  cases sound with
  | value spelling _ plain => exact .value spelling around plain
  | inline _ distinct items filled => exact .inline around distinct items filled
  | table distinct items filled => exact .table distinct items filled
  | tables headed items => exact .tables headed items

theorem ofWord_ne_table {s : List Char} {v : Value} (read : ofWord s = some v)
    (members : List (String × Value)) : v ≠ .table members := by
  rintro rfl
  simp only [ofWord] at read
  split at read
  · cases read
  · split at read
    · cases read
    · simp [Option.orElse_eq_or, Option.or_eq_some_iff, Option.map_eq_some_iff] at read

/-- Items and the rest of tables between braces are sound, at any depth. -/
theorem sound_item_pairs (fuel : Nat) :
    (∀ depth s i rest, item fuel depth s = some (i, rest) → i.Sound) ∧
      ∀ depth seen s i rest, Entries.Sound seen → pairs fuel depth seen s = some (i, rest) → i.Sound := by
  induction fuel with
  | zero =>
    constructor
    · intro depth s i rest read
      cases read
    · intro depth seen s i rest sound read
      cases read
  | succ fuel ih =>
    obtain ⟨items, tables⟩ := ih
    constructor
    · intro depth s i rest read
      simp only [item, Option.bind_eq_bind] at read
      split at read
      · cases read
      · simp only [Option.bind_eq_some_iff, Option.some.injEq, Prod.mk.injEq] at read
        obtain ⟨-, -, rfl, -⟩ := read
        exact .value _ _ (by simp)
      · simp only [Option.bind_eq_some_iff, Option.some.injEq, Prod.mk.injEq] at read
        obtain ⟨-, -, rfl, -⟩ := read
        exact .value _ _ (by simp)
      · split at read
        · cases read
        · simp only [Option.bind_eq_some_iff, Option.some.injEq, Prod.mk.injEq] at read
          obtain ⟨-, -, rfl, -⟩ := read
          exact .value _ _ (by simp)
      · split at read
        · cases read
        · exact tables _ [] _ _ _ Entries.sound_nil read
      · simp only [Option.bind_eq_some_iff, Option.some.injEq, Prod.mk.injEq] at read
        obtain ⟨v, word, rfl, -⟩ := read
        exact .value _ _ (ofWord_ne_table word)
    · intro depth seen s i rest sound read
      simp only [pairs, Option.bind_eq_bind, Option.bind_eq_some_iff] at read
      obtain ⟨start, -, read⟩ := read
      split at read
      · simp only [Option.some.injEq, Prod.mk.injEq] at read
        obtain ⟨rfl, -⟩ := read
        exact .inline _ sound.distinct sound.items (by simp)
      · simp only [Option.bind_eq_some_iff] at read
        obtain ⟨⟨key, path, more⟩, -, read⟩ := read
        dsimp only at read
        split at read
        · simp only [Option.bind_eq_some_iff] at read
          obtain ⟨first, -, ⟨i', after⟩, one, next, -, seen', added, read⟩ := read
          have sound' := (sound.addPair (sound_setAround _ (items _ _ _ _ one)) added).1
          split at read
          · exact tables _ _ _ _ _ sound' read
          · simp only [Option.some.injEq, Prod.mk.injEq] at read
            obtain ⟨rfl, -⟩ := read
            exact .inline _ sound'.distinct sound'.items (by simp [Braces.new])
          · cases read
        · cases read

theorem sound_line {before : String} {s rest : List Char} {l : Line} (read : line before s = some (l, rest)) :
    l.item.Sound := by
  simp only [line, Option.bind_eq_bind, Option.bind_eq_some_iff] at read
  obtain ⟨⟨key, path, more⟩, -, read⟩ := read
  dsimp only at read
  split at read
  · simp only [Option.bind_eq_some_iff, Option.some.injEq, Prod.mk.injEq] at read
    obtain ⟨⟨i, after⟩, one, -, -, rfl, -⟩ := read
    exact sound_setAround _ ((sound_item_pairs _).1 _ _ _ _ one)
  · cases read

theorem header_lines {before : String} {s rest : List Char} {sec : Section}
    (read : header before s = some (sec, rest)) : sec.lines = [] := by
  simp only [header, Option.bind_eq_bind] at read
  split at read
  case h_3 => cases read
  all_goals
    simp only [Option.bind_some, Option.bind_eq_some_iff] at read
    obtain ⟨⟨key, path, more⟩, -, read⟩ := read
    split at read
    case h_3 => cases read
    all_goals
      simp only [Option.bind_eq_some_iff, Option.some.injEq, Prod.mk.injEq] at read
      obtain ⟨-, -, rfl, -⟩ := read
      rfl

/-- The items of all lines that have been read are sound. -/
structure Progress.Sound (p : Progress) : Prop where
  lines : ∀ l ∈ p.lines, l.item.Sound
  sections : ∀ s ∈ p.sections, ∀ l ∈ s.lines, l.item.Sound

theorem Progress.Sound.addLine {p : Progress} (sound : p.Sound) {l : Line} (item : l.item.Sound) :
    (p.addLine l).Sound := by
  have appended (lines : List Line) (old : ∀ k ∈ lines, k.item.Sound) :
      ∀ k ∈ lines ++ [l], k.item.Sound := by
    intro k member
    rcases List.mem_append.mp member with before | last
    · exact old k before
    · rw [List.mem_singleton.mp last]
      exact item
  rw [Progress.addLine]
  split
  · exact ⟨appended _ sound.lines, sound.sections⟩
  · rename_i s rest reading
    have each := sound.sections
    rw [reading] at each
    refine ⟨sound.lines, fun s' member => ?_⟩
    rcases List.mem_cons.mp member with rfl | other
    · exact appended _ (each s List.mem_cons_self)
    · exact each s' (List.mem_cons_of_mem _ other)

theorem sound_document {fuel : Nat} {p : Progress} (sound : p.Sound) {s : List Char} {d : Document}
    (read : document fuel p s = some d) : d.entries.Sound := by
  induction fuel generalizing p s with
  | zero => cases read
  | succ fuel ih =>
    simp only [document, Option.bind_eq_bind, Option.bind_eq_some_iff] at read
    obtain ⟨start, -, read⟩ := read
    split at read
    · exact Document.sound_of_sections sound.lines
        (fun s member => sound.sections s (List.mem_reverse.mp member)) read
    · obtain ⟨⟨sec, rest⟩, one, more⟩ := Option.bind_eq_some_iff.mp read
      have opened : Progress.Sound { p with sections := sec :: p.sections } := by
        refine ⟨sound.lines, fun s member => ?_⟩
        rcases List.mem_cons.mp member with rfl | other
        · simp [header_lines one]
        · exact sound.sections s other
      exact ih opened more
    · obtain ⟨⟨l, rest⟩, one, more⟩ := Option.bind_eq_some_iff.mp read
      exact ih (sound.addLine (sound_line one)) more

end Parser

/-- A document that was read is sound. -/
theorem Document.parse?_sound {text : String} {d : Document} (read : Document.parse? text = some d) :
    d.entries.Sound :=
  Parser.sound_document ⟨by simp, by simp⟩ read

end LinterClient.Toml
