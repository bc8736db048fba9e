import LinterClient.Proofs.Toml.Comments.Reading
import LinterClient.Proofs.Toml.Comments.Writing

/-!
What an edit does to the comments of a document.

An object that is stored replaces the whole entry at its path, or the first one on the way that is no
table; the comments of that entry are gone, and all others stay.
-/

namespace LinterClient.Toml.Entries

variable {entries : Entries} {braced : Bool} {name : String} {i : Item}

theorem find?_eq_some (distinct : entries.Distinct) (found : entries.get? name = some i) :
    ∃ front k back, entries = front ++ (k, i) :: back ∧ k.name = name ∧
      (∀ e ∈ front ++ back, e.1.name ≠ name) ∧ entries.find? (·.1.name = name) = some (k, i) := by
  obtain ⟨front, k, back, rfl, rfl, others⟩ := distinct.split found
  refine ⟨front, k, back, rfl, rfl, others, ?_⟩
  rw [List.find?_append, List.find?_eq_none.mpr fun e member => by
    simpa using others e (List.mem_append_left _ member)]
  simp

theorem find?_eq_none (absent : entries.get? name = none) : entries.find? (·.1.name = name) = none :=
  Option.map_eq_none_iff.mp absent

/-- What becomes of some entries when others take the place of a part of them. -/
structure Rewritten (braced : Bool) (entries new : Entries) (lost : Multiset String) : Prop where
  legible : new.Legible true braced
  comments : Item.entriesComments entries = Item.entriesComments new + lost

theorem rewritten_append (legible : entries.Legible false braced) (name : String) {i : Item}
    (item : i.Legible true braced) (silent : i.comments = 0) :
    Rewritten braced entries (entries ++ [(.new name, i)]) 0 where
  legible := legible.weaken.append (keyFits_new name none) item
  comments := by
    have usual : (Key.new name).around.comments = 0 := rfl
    rw [comments_append, comments_one, comment, silent, usual, ite_self]
    simp

/-- Another entry in the place of one. -/
theorem rewritten_swap {front back : Entries} {k k' : Key} {i j : Item}
    (legible : Legible false braced (front ++ (k, i) :: back)) (item : j.Legible true braced)
    (key : KeyFits true (k', j)) {lost : Multiset String} (comments : comment (k, i) = comment (k', j) + lost) :
    Rewritten braced (front ++ (k, i) :: back) (front ++ (k', j) :: back) lost where
  legible := legible.weaken.swap key item
  comments := by
    rw [comments_append, comments_cons, comments, comments_append, comments_cons]
    simp only [add_assoc, add_left_comm, add_comm]

theorem insert_split {front back : Entries} {k : Key} {i : Item}
    (others : ∀ e ∈ front ++ back, e.1.name ≠ k.name) (j : Item) :
    (front ++ (k, i) :: back).insert k.name j =
      front ++ (⟨k.name, none, .usual, .usual, k.remaining⟩, j) :: back := by
  have present : ((front ++ (k, i) :: back).get? k.name).isSome = true := by
    simp [Entries.get?]
  rw [insert, if_pos present]
  exact map_split others fun e => (⟨k.name, none, .usual, .usual, e.1.remaining⟩, j)

theorem rewritten_insert (distinct : entries.Distinct) (legible : entries.Legible false braced)
    (last : String) (item : i.Legible true braced) (silent : i.comments = 0) :
    Rewritten braced entries (entries.insert last i)
      (((entries.find? (·.1.name = last)).map comment).getD 0) := by
  cases present : entries.get? last with
  | none =>
    rw [find?_eq_none present, insert, present, if_neg (by simp)]
    exact rewritten_append legible last item silent
  | some old =>
    obtain ⟨front, k, back, rfl, rfl, others, found⟩ := find?_eq_some distinct present
    rw [found, insert_split others]
    have usual : Trivia.usual.comments = 0 := rfl
    refine rewritten_swap legible item (keyFits_new k.name k.remaining) ?_
    rw [Option.map_some, Option.getD_some, comment, comment, silent, usual, ite_self]
    simp

/-- A new table holds nothing but the way to what was stored. -/
theorem hidden_assign {below : Entries} {path : List String} (filled : path ≠ []) :
    Item.Hidden (newTable false (assign (.table below .new) false [] path)) := by
  refine ⟨_, rfl, fun e member => ?_⟩
  match path with
  | [last] =>
    rw [List.mem_singleton.mp (show e ∈ [(Key.new last, Item.table below .new)] from member)]
    exact ⟨_, _, rfl, by decide⟩
  | name :: next :: rest =>
    rw [List.mem_singleton.mp (show e ∈ [(Key.new name, newTable false _)] from member)]
    exact ⟨_, _, rfl, by decide⟩

theorem newTable_legible {new : Entries} (legible : new.Legible true braced) :
    (newTable braced new).Legible true braced := by
  cases braced
  · exact .table legible.keys legible.items (Trivia.fits_usual _) fun _ => rfl
  · exact .inline legible.keys legible.items gap_nil (Trivia.fits_usual _) (by simp [Braces.new])

@[simp] theorem isPair_newTable (braced : Bool) (new : Entries) : (newTable braced new).isPair = braced := by
  cases braced <;> rfl

theorem newTable_comments (braced : Bool) {new : Entries} (silent : Item.entriesComments new = 0) :
    (newTable braced new).comments = 0 := by
  cases braced <;> simp only [newTable, if_true, if_neg Bool.false_ne_true, Item.comments, silent] <;> rfl

/-! ## Along a path -/

/-- What storing a table at a path does to all entries. -/
def Rewrites (below : Entries) (path : List String) : Prop :=
  ∀ (braced : Bool) (entries : Entries), entries.Sound → entries.Legible false braced →
    Rewritten braced entries (entries.assign (.table below .new) braced path) (entries.replaced braced path)

section Steps

variable {below inner : Entries} {name next : String} {rest : List String} {front back : Entries} {k : Key}
  (later : Rewrites below (next :: rest)) (others : ∀ e ∈ front ++ back, e.1.name ≠ k.name)

include later

/-- A new table has nothing in it but the rest of the way. -/
theorem Rewrites.anew (braced : Bool) :
    (newTable braced (assign (.table below .new) braced [] (next :: rest))).Legible true braced ∧
      (newTable braced (assign (.table below .new) braced [] (next :: rest))).comments = 0 := by
  have made := later braced [] sound_nil (legible_nil _ _)
  refine ⟨newTable_legible made.legible, newTable_comments braced (Multiset.le_zero.mp ?_)⟩
  exact (Multiset.le_add_right _ _).trans made.comments.ge

include others

/-- What is no table makes room for a new one. -/
theorem Rewrites.other {old : Item} (legible : Legible false braced (front ++ (k, old) :: back))
    (plain : braced = true → old.isPair = true) :
    Rewritten braced (front ++ (k, old) :: back)
      ((front ++ (k, old) :: back).replace k.name
        (newTable braced (assign (.table below .new) braced [] (next :: rest))))
      (if braced then old.comments else comment (k, old)) := by
  obtain ⟨item, silent⟩ := later.anew braced
  have key : KeyFits false (k, old) := legible.keys _ (by simp)
  rw [replace_split others]
  refine rewritten_swap legible item ?_ ?_
  · refine ⟨key.fits, fun pair => key.leads (plain (by simpa using pair)), fun table => .inr ⟨rfl, ?_⟩⟩
    obtain rfl : braced = false := by simpa using table
    exact hidden_assign (by simp)
  · rw [comment, comment, isPair_newTable, silent]
    cases braced
    · simp
    · simp [plain]

theorem Rewrites.inline {braces : Braces} {around : Trivia} (sound : (Item.inline inner braces around).Sound)
    (legible : Legible false braced (front ++ (k, .inline inner braces around) :: back)) :
    Rewritten braced (front ++ (k, .inline inner braces around) :: back)
      ((front ++ (k, .inline inner braces around) :: back).replace k.name
        (.inline (assign (.table below .new) true inner (next :: rest)) braces around))
      (replaced true inner (next :: rest)) := by
  have key : KeyFits false (k, .inline inner braces around) := legible.keys _ (by simp)
  cases legible.items (k, .inline inner braces around) (by simp) with
  | inline keys items trailing fits dotted =>
    have step := later true inner (Sound.of_inline sound) ⟨keys, items⟩
    have item : (Item.inline (assign (.table below .new) true inner (next :: rest)) braces around).Legible true
        braced := .inline step.legible.keys step.legible.items trailing fits dotted
    have fitting : KeyFits false (k, .inline (assign (.table below .new) true inner (next :: rest)) braces
        around) := key.congr rfl
    rw [replace_split others]
    refine rewritten_swap legible item fitting.weaken ?_
    simp only [comment, Item.comments, step.comments, add_assoc, add_left_comm, add_comm]
    rfl

theorem Rewrites.table {heading : Heading} (sound : (Item.table inner heading).Sound)
    (legible : Legible false false (front ++ (k, .table inner heading) :: back)) :
    Rewritten false (front ++ (k, .table inner heading) :: back)
      ((front ++ (k, .table inner heading) :: back).replace k.name
        (.table (assign (.table below .new) false inner (next :: rest)) heading))
      (replaced false inner (next :: rest)) := by
  have key : KeyFits false (k, .table inner heading) := legible.keys _ (by simp)
  have whole : (Item.table inner heading).Legible false false :=
    legible.items (k, .table inner heading) (by simp)
  obtain ⟨innerLegible, fits, headed⟩ := whole.of_table
  have step := later false inner (Sound.of_table sound) innerLegible
  have item : (Item.table (assign (.table below .new) false inner (next :: rest)) heading).Legible true false :=
    .table step.legible.keys step.legible.items fits headed
  have fitting : KeyFits false (k, .table (assign (.table below .new) false inner (next :: rest)) heading) :=
    key.congr rfl
  rw [replace_split others]
  refine rewritten_swap legible item fitting.weaken ?_
  simp only [comment, Item.comments, step.comments, add_assoc]
  rfl

omit others

theorem Rewrites.cons (name : String) : Rewrites below (name :: next :: rest) := by
  intro braced entries sound legible
  simp only [assign, replaced]
  cases present : entries.get? name with
  | none =>
    obtain ⟨item, silent⟩ := later.anew braced
    rw [find?_eq_none present]
    exact rewritten_append legible name item silent
  | some old =>
    have itemSound := sound.get? present
    have itemLegible := legible.get? present
    obtain ⟨front, k, back, rfl, rfl, others, found⟩ := find?_eq_some sound.distinct present
    rw [found]
    cases old with
    | inline inner braces around => exact later.inline others itemSound legible
    | table inner heading =>
      cases itemLegible
      exact later.table others itemSound legible
    | value v spelling around => exact later.other others legible fun _ => rfl
    | tables elements =>
      cases itemLegible
      exact later.other others legible (by simp)

end Steps

/-- Storing a table loses the comments of what it replaces, and no others. -/
theorem rewritten_assign {below : Entries} (fresh : Item.Fresh (.table below .new)) (path : List String) :
    Rewrites below path := by
  induction path with
  | nil => exact fun _ _ _ legible => ⟨legible.weaken, (add_zero _).symm⟩
  | cons name path ih =>
    match path with
    | [] =>
      intro braced entries sound legible
      cases braced
      · exact rewritten_insert sound.distinct legible name fresh.legible fresh.comments
      · exact rewritten_insert sound.distinct legible name fresh.inlinedLegible fresh.inlinedComments
    | next :: rest => exact ih.cons name

end LinterClient.Toml.Entries
