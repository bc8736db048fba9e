import LinterClient.Proofs.Toml.Comments.Legible

/-!
Lines, pairs and sections bring their comments into the document that is put together from them.
-/

namespace LinterClient.Toml

def Line.comments (l : Line) : Multiset String := Entries.comment (l.key, l.item)

def Section.comments (s : Section) : Multiset String :=
  s.around.comments + (s.lines.map Line.comments).sum

/-- A key that only leads to tables. -/
structure Key.Bare (k : Key) : Prop where
  fits : k.Fits
  blank : k.around.Blank

theorem Key.Bare.keyFits {k : Key} {i : Item} (bare : k.Bare) (other : i.isPair = false) :
    Entries.KeyFits false (k, i) :=
  ⟨bare.fits, by simp [other], fun _ => .inl bare.blank⟩

theorem Item.Legible.of_table {entries : Entries} {heading : Heading} {edited braced : Bool}
    (legible : (Item.table entries heading).Legible edited braced) :
    entries.Legible edited false ∧ heading.around.Fits false ∧
      (heading.form ≠ .header → heading.around = .usual) := by
  cases legible with
  | table keys items fits headed => exact ⟨⟨keys, items⟩, fits, headed⟩

structure Line.Legible (l : Line) : Prop where
  path : ∀ k ∈ l.path, k.Bare
  key : Entries.KeyFits false (l.key, l.item)
  item : l.item.Legible false false
  sound : l.item.Sound

structure Section.Legible (s : Section) : Prop where
  path : ∀ k ∈ s.path, k.Bare
  key : s.key.Bare
  around : s.around.Fits false
  lines : ∀ l ∈ s.lines, l.Legible

namespace Entries

variable {entries new : Entries} {braced : Bool} {name : String} {k key : Key} {i j item : Item}

theorem KeyFits.congr (fits : KeyFits false (k, i)) (pair : j.isPair = i.isPair) : KeyFits false (k, j) where
  fits := fits.fits
  leads := by
    rw [pair]
    exact fits.leads
  blank := by
    rw [pair]
    exact fun other => .inl (by simpa using fits.blank other)

/-- What an addition to entries does: they stay legible, and comments come along. -/
structure Brings (braced : Bool) (entries new : Entries) (more : Multiset String) : Prop where
  legible : new.Legible false braced
  comments : Item.entriesComments new = Item.entriesComments entries + more

theorem brings_append (legible : entries.Legible false braced) (fits : KeyFits false (k, i))
    (item : i.Legible false braced) : Brings braced entries (entries ++ [(k, i)]) (comment (k, i)) :=
  ⟨legible.append fits item, by rw [comments_append, comments_one]⟩

theorem brings_replace (sound : entries.Sound) (legible : entries.Legible false braced)
    (found : entries.get? name = some i) (item : j.Legible false braced) (pair : j.isPair = i.isPair)
    {more : Multiset String} (comments : j.comments = i.comments + more) :
    Brings braced entries (entries.replace name j) more where
  legible := legible.replace name (fun _ member => (legible.keys _ member).congr pair) found sound.distinct item
  comments := sound.distinct.comments_replace found pair comments

theorem Legible.get? (legible : entries.Legible false braced) (found : entries.get? name = some i) :
    i.Legible false braced := by
  obtain ⟨k, -, member⟩ := mem_of_get? found
  exact legible.items _ member

theorem comments_table (heading : Heading) {more : Multiset String}
    (brings : Brings braced entries new more) :
    (Item.table new heading).comments = (Item.table entries heading).comments + more := by
  rw [Item.comments, Item.comments, brings.comments, add_assoc]

theorem legible_table {heading : Heading} (legible : new.Legible false false)
    (fits : heading.around.Fits false) (headed : heading.form ≠ .header → heading.around = .usual) :
    (Item.table new heading).Legible false false :=
  .table legible.keys legible.items fits headed

/-- A new table that has no lines of its own. -/
theorem comment_usual {heading : Heading} (around : heading.around = .usual) :
    comment (k, .table new heading) = Item.entriesComments new := by
  rw [comment, Item.isPair, if_neg Bool.false_ne_true, zero_add, Item.comments, around]
  exact zero_add _

theorem Brings.of_nil {more : Multiset String} (brings : Brings braced [] new more) :
    Item.entriesComments new = more := by
  rw [brings.comments]
  exact zero_add _

theorem brings_line (fits : KeyFits false (key, item)) (itemLegible : item.Legible false false)
    {dotted inside : Bool} {path : List Key} (bare : ∀ k ∈ path, k.Bare) (sound : entries.Sound)
    (legible : entries.Legible false false)
    (added : entries.addLine key item dotted inside path = some new) :
    Brings false entries new (comment (key, item)) := by
  induction path generalizing entries dotted inside new with
  | nil =>
    simp only [Entries.addLine, Option.ite_none_right_eq_some, Option.some.injEq] at added
    obtain ⟨-, rfl⟩ := added
    exact brings_append legible fits itemLegible
  | cons k path ih =>
    have further := fun k member => bare k (List.mem_cons_of_mem _ member)
    simp only [Entries.addLine] at added
    split at added
    · obtain ⟨below, more, rfl⟩ := Option.map_eq_some_iff.mp added
      have brings := ih further sound_nil (legible_nil _ _) more
      have table : (Item.table below ⟨.dotted, none, .usual⟩).Legible false false :=
        legible_table brings.legible (Trivia.fits_usual _) fun _ => rfl
      have appended := brings_append legible ((bare k List.mem_cons_self).keyFits rfl) table
      rwa [comment_usual rfl, brings.of_nil] at appended
    · rename_i old heading found
      split at added
      · cases added
      · obtain ⟨below, more, rfl⟩ := Option.map_eq_some_iff.mp added
        obtain ⟨oldLegible, around, headed⟩ := (legible.get? found).of_table
        have brings := ih further (Sound.of_table (sound.get? found)) oldLegible more
        exact brings_replace sound legible found (legible_table brings.legible around headed) rfl
          (comments_table heading brings)
    · cases added

theorem brings_pair (fits : KeyFits false (key, item)) (itemLegible : item.Legible false true)
    {dotted inside : Bool} {path : List Key} (bare : ∀ k ∈ path, k.Bare) (sound : entries.Sound)
    (legible : entries.Legible false true)
    (added : entries.addPair key item dotted inside path = some new) :
    Brings true entries new (comment (key, item)) := by
  induction path generalizing entries dotted inside new with
  | nil =>
    simp only [Entries.addPair, Option.ite_none_right_eq_some, Option.some.injEq] at added
    obtain ⟨-, rfl⟩ := added
    exact brings_append legible fits itemLegible
  | cons k path ih =>
    have further := fun k member => bare k (List.mem_cons_of_mem _ member)
    simp only [Entries.addPair] at added
    split at added
    · obtain ⟨below, more, rfl⟩ := Option.map_eq_some_iff.mp added
      have brings := ih further sound_nil (legible_nil _ _) more
      have table : (Item.inline below ⟨true, false, ""⟩ .usual).Legible false true :=
        .inline brings.legible.keys brings.legible.items gap_nil (Trivia.fits_usual _) fun _ => ⟨rfl, rfl⟩
      have appended := brings_append legible ((bare k List.mem_cons_self).keyFits rfl) table
      have comments : comment (k, .inline below ⟨true, false, ""⟩ .usual) = comment (key, item) := by
        rw [comment, Item.isPair, if_neg (by decide), zero_add, Item.comments, brings.of_nil]
        exact (add_zero _).trans (zero_add _)
      rwa [comments] at appended
    · rename_i old braces around found
      split at added
      · obtain ⟨below, more, rfl⟩ := Option.map_eq_some_iff.mp added
        cases legible.get? found with
        | inline keys items trailing fitted quiet =>
          have brings := ih further (Sound.of_inline (sound.get? found)) ⟨keys, items⟩ more
          have table : (Item.inline below braces around).Legible false true :=
            .inline brings.legible.keys brings.legible.items trailing fitted quiet
          refine brings_replace sound legible found table rfl ?_
          rw [Item.comments, Item.comments, brings.comments]
          simp only [add_assoc, add_left_comm, add_comm]
      · cases added
    · cases added

theorem brings_lines {lines : List Line} (each : ∀ l ∈ lines, l.Legible) (sound : entries.Sound)
    (legible : entries.Legible false false) (added : entries.addLines lines = some new) :
    Brings false entries new (lines.map Line.comments).sum := by
  induction lines generalizing entries with
  | nil =>
    cases added
    exact ⟨legible, (add_zero _).symm⟩
  | cons l rest ih =>
    simp only [Entries.addLines, List.foldlM_cons, Option.bind_eq_bind, Option.bind_eq_some_iff] at added
    obtain ⟨next, first, more⟩ := added
    have line := each l List.mem_cons_self
    have one := brings_line line.key line.item line.path sound legible first
    have others := ih (fun l member => each l (List.mem_cons_of_mem _ member))
      (sound.addLine line.sound first).1 one.legible more
    refine ⟨others.legible, ?_⟩
    rw [others.comments, one.comments, List.map_cons, List.sum_cons, add_assoc]
    rfl

section Sections

variable {s : Section} {position : Nat} (legible_ : s.Legible)

include legible_

theorem brings_table (sound : entries.Sound) (legible : entries.Legible false false)
    (added : entries.addTable s position = some new) : Brings false entries new s.comments := by
  simp only [Entries.addTable, Option.bind_eq_bind] at added
  split at added
  · obtain ⟨below, more, same⟩ := Option.bind_eq_some_iff.mp added
    cases same
    have brings := brings_lines legible_.lines sound_nil (legible_nil _ _) more
    have table : (Item.table below ⟨.header, some position, s.around⟩).Legible false false :=
      legible_table brings.legible legible_.around (by simp)
    have appended := brings_append legible (legible_.key.keyFits rfl) table
    have comments : comment (s.key, .table below ⟨.header, some position, s.around⟩) = s.comments := by
      rw [comment, Item.isPair, if_neg Bool.false_ne_true, zero_add, Item.comments, brings.of_nil]
      rfl
    rwa [comments] at appended
  · rename_i old position' around found
    obtain ⟨below, more, same⟩ := Option.bind_eq_some_iff.mp added
    cases same
    obtain ⟨oldLegible, -, usual⟩ := (legible.get? found).of_table
    have brings := brings_lines legible_.lines (Sound.of_table (sound.get? found)) oldLegible more
    have table : (Item.table below ⟨.header, some position, s.around⟩).Legible false false :=
      legible_table brings.legible legible_.around (by simp)
    obtain ⟨front, k, back, rfl, named, others⟩ := sound.distinct.split found
    have rest : erase (front ++ (k, .table old ⟨.implied, position', around⟩) :: back) s.key.name =
        front ++ back := by
      rw [erase, List.filter_append, List.filter_cons_of_neg (by simpa using named), ← List.filter_append,
        List.filter_eq_self]
      exact fun e member => by simpa using others e member
    rw [rest]
    have kept : Legible false false (front ++ back) := by
      refine ⟨fun e member => legible.keys e ?_, fun e member => legible.items e ?_⟩ <;>
        rcases List.mem_append.mp member with before | after <;> simp [*]
    refine ⟨(brings_append kept (legible_.key.keyFits rfl) table).legible, ?_⟩
    have none_ : around = .usual := usual (by simp)
    have moved : (Item.table below ⟨.header, some position, s.around⟩).comments =
        Item.entriesComments old + s.comments := by
      rw [Item.comments, brings.comments, Section.comments]
      exact add_left_comm _ _ _
    have before : comment (k, .table old ⟨.implied, position', around⟩) = Item.entriesComments old :=
      comment_usual none_
    rw [comments_append, comments_one, comments_append, comments_append, comments_cons, before, comment, Item.isPair,
      if_neg Bool.false_ne_true, zero_add, moved]
    simp only [add_assoc, add_left_comm]
  · cases added

theorem brings_element (sound : entries.Sound) (legible : entries.Legible false false)
    (added : entries.addElement s position = some new) : Brings false entries new s.comments := by
  simp only [Entries.addElement, Option.bind_eq_bind, Option.bind_eq_some_iff] at added
  obtain ⟨below, more, added⟩ := added
  have brings := brings_lines legible_.lines sound_nil (legible_nil _ _) more
  have table : (Item.table below ⟨.header, some position, s.around⟩).Legible false false :=
    legible_table brings.legible legible_.around (by simp)
  have comments : (Item.table below ⟨.header, some position, s.around⟩).comments = s.comments := by
    rw [Item.comments, brings.of_nil]
    rfl
  split at added
  · cases added
    have array : (Item.tables [.table below ⟨.header, some position, s.around⟩]).Legible false false :=
      .tables (by simp) (by simpa using table)
    have appended := brings_append legible (legible_.key.keyFits rfl) array
    have same : comment (s.key, .tables [.table below ⟨.header, some position, s.around⟩]) = s.comments := by
      rw [comment, Item.isPair, if_neg Bool.false_ne_true, zero_add, Item.comments,
        Item.elementsComments_eq_sum, List.map_singleton, List.sum_singleton, comments]
    rwa [same] at appended
  · rename_i elements found
    cases added
    cases legible.get? found with
    | tables headed items =>
      have array : (Item.tables
          (elements ++ [.table below ⟨.header, some position, s.around⟩])).Legible false false := by
        refine .tables ?_ ?_ <;> intro i member <;> rcases List.mem_append.mp member with old | last
        · exact headed i old
        · exact ⟨_, _, List.mem_singleton.mp last, rfl⟩
        · exact items i old
        · rw [List.mem_singleton.mp last]
          exact table
      refine brings_replace sound legible found array rfl ?_
      simp only [Item.comments, Item.elementsComments_eq_sum, List.map_append, List.sum_append,
        List.map_singleton, List.sum_singleton]
      rw [← comments, Item.comments]
  · cases added

/-- A section brings its comments, wherever it belongs. -/
theorem brings_section {path : List Key} (bare : ∀ k ∈ path, k.Bare) (sound : entries.Sound)
    (legible : entries.Legible false false) (added : entries.addSection s position path = some new) :
    Brings false entries new s.comments := by
  induction path generalizing entries new with
  | nil =>
    simp only [Entries.addSection] at added
    split at added
    · exact brings_element legible_ sound legible added
    · exact brings_table legible_ sound legible added
  | cons k path ih =>
    have further := fun k member => bare k (List.mem_cons_of_mem _ member)
    simp only [Entries.addSection] at added
    split at added
    · obtain ⟨below, more, rfl⟩ := Option.map_eq_some_iff.mp added
      have brings := ih further sound_nil (legible_nil _ _) more
      have table : (Item.table below .new).Legible false false :=
        legible_table brings.legible (Trivia.fits_usual _) fun _ => rfl
      have appended := brings_append legible ((bare k List.mem_cons_self).keyFits rfl) table
      rwa [comment_usual rfl, brings.of_nil] at appended
    · rename_i old heading found
      obtain ⟨below, more, rfl⟩ := Option.map_eq_some_iff.mp added
      obtain ⟨oldLegible, around, headed⟩ := (legible.get? found).of_table
      have brings := ih further (Sound.of_table (sound.get? found)) oldLegible more
      exact brings_replace sound legible found (legible_table brings.legible around headed) rfl
        (comments_table heading brings)
    · rename_i elements found
      split at added
      · rename_i old heading before reversed
        obtain ⟨below, more, rfl⟩ := Option.map_eq_some_iff.mp added
        have whole : elements = (.table old heading :: before).reverse := by
          rw [← reversed, List.reverse_reverse]
        subst whole
        cases legible.get? found with
        | tables headed items =>
          have lastSound : (Item.table old heading).Sound := by
            cases sound.get? found with
            | tables _ each => exact each _ (by simp)
          obtain ⟨oldLegible, around, usual⟩ := (items (.table old heading) (by simp)).of_table
          have brings := ih further (Sound.of_table lastSound) oldLegible more
          have array : (Item.tables (.table below heading :: before).reverse).Legible false false := by
            refine .tables ?_ ?_ <;> intro i member <;>
              rcases List.mem_cons.mp (List.mem_reverse.mp member) with rfl | old
            · obtain ⟨_, _, same, form⟩ := headed (.table old heading) (by simp)
              cases same
              exact ⟨_, _, rfl, form⟩
            · exact headed i (by simp [old])
            · exact legible_table brings.legible around usual
            · exact items i (by simp [old])
          refine brings_replace sound legible found array rfl ?_
          simp only [Item.comments, Item.elementsComments_eq_sum, List.map_reverse, List.sum_reverse,
            List.map_cons, List.sum_cons, brings.comments]
          simp only [add_assoc, add_left_comm, add_comm]
      · cases added
    · cases added

end Sections

end Entries

/-- A document that is put together is legible and has all comments of its parts. -/
theorem Document.comments_of_sections {lines : List Line} {sections : List Section} {trailing : String}
    {d : Document} (first : ∀ l ∈ lines, l.Legible) (below : ∀ s ∈ sections, s.Legible)
    (made : Document.ofSections? lines sections trailing = some d) :
    d.entries.Legible false false ∧ d.comments =
      (lines.map Line.comments).sum + (sections.map Section.comments).sum + Toml.comments trailing := by
  simp only [Document.ofSections?, Option.bind_eq_bind, Option.bind_eq_some_iff] at made
  obtain ⟨root, rooted, entries, added, same⟩ := made
  cases same
  have start := Entries.brings_lines first Entries.sound_nil (Entries.legible_nil _ _) rooted
  have rootSound := Entries.sound_nil.addLines (fun l member => (first l member).sound) rooted
  -- one section after the other, whatever their numbers
  have build : ∀ (numbered : List (Section × Nat)) (start : Entries),
      (∀ p ∈ numbered, p.1.Legible) → start.Sound → start.Legible false false →
      numbered.foldlM (fun acc p => acc.addSection p.1 (p.2 + 1) p.1.path) start = some entries →
      Entries.Brings false start entries (numbered.map fun p => p.1.comments).sum := by
    intro numbered
    induction numbered with
    | nil =>
      intro start _ _ legible done
      cases done
      exact ⟨legible, (add_zero _).symm⟩
    | cons p rest ih =>
      intro start each sound legible done
      simp only [List.foldlM_cons, Option.bind_eq_bind, Option.bind_eq_some_iff] at done
      obtain ⟨next, one, more⟩ := done
      have fits := each p List.mem_cons_self
      have brings := Entries.brings_section fits fits.path sound legible one
      have others := ih next (fun p member => each p (List.mem_cons_of_mem _ member))
        (sound.addSection (fun l member => (fits.lines l member).sound) one).1 brings.legible more
      refine ⟨others.legible, ?_⟩
      rw [others.comments, brings.comments, List.map_cons, List.sum_cons, add_assoc]
  have all := build _ root (fun p member => below p.1 (List.fst_mem_of_mem_zipIdx member)) rootSound
    start.legible added
  refine ⟨all.legible, ?_⟩
  have numbers : (sections.zipIdx.map fun p => p.1.comments) = sections.map Section.comments := by
    conv_rhs => rw [← List.zipIdx_map_fst 0 sections, List.map_map]
    rfl
  rw [Document.comments, all.comments, start.of_nil, numbers]

end LinterClient.Toml
