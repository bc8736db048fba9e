import LinterClient.Proofs.Toml.Comments.Editing
import LinterClient.Proofs.Toml.Comments.Pieces

/-!
The text of a legible document has the comments of the document.

Lines may change their places within a table, and tables within the document; what a comment belongs to
does not matter.
-/

namespace LinterClient.Toml

/-! ## Pieces and blocks of items -/

namespace Block

def comments (b : Block) : Multiset String :=
  b.heading.around.comments + (b.pieces.map Piece.comments).sum

/-- A table whose lines can be printed, and its header if it has one. -/
structure Legible (b : Block) : Prop where
  keys : ∀ k ∈ b.path, k.Fits
  blank : b.hasHeader = true → (pathAround b.path).Blank
  around : b.heading.around.Fits false
  silent : b.hasHeader = false → b.heading.around.comments = 0
  pieces : ∀ p ∈ b.pieces, p.Legible false

end Block

/-- The comments of some pieces and blocks. -/
def printed (pieces : List Piece) (blocks : List Block) : Multiset String :=
  (pieces.map Piece.comments).sum + (blocks.map Block.comments).sum

theorem printed_append (pieces pieces' : List Piece) (blocks blocks' : List Block) :
    printed (pieces ++ pieces') (blocks ++ blocks') = printed pieces blocks + printed pieces' blocks' := by
  simp only [printed, List.map_append, List.sum_append, add_assoc, add_left_comm, add_comm]

/-- Entries below a path are printed with all their comments. -/
structure Entries.Printed (braced : Bool) (entries : Entries) : Prop where
  pieces (above : List Key) : (∀ k ∈ above, k.Fits) → ∀ p ∈ Entries.pieces above entries, p.Legible braced
  blocks (above : List Key) : (∀ k ∈ above, k.Fits) → ∀ b ∈ Entries.blocks above entries, b.Legible
  comments (above above' : List Key) :
    printed (Entries.pieces above entries) (Entries.blocks above' entries) = Item.entriesComments entries

theorem Entries.Printed.weaken {entries : Entries} (inner : entries.Printed true) (braced : Bool) :
    entries.Printed braced :=
  ⟨fun above fits p member => (inner.pieces above fits p member).weaken braced, inner.blocks, inner.comments⟩

/-- So is an item, behind its key. -/
structure Item.Printed (braced : Bool) (i : Item) : Prop where
  pieces (path : List Key) (k : Key) : (∀ k ∈ path, k.Fits) → Entries.KeyFits true (k, i) →
    ∀ p ∈ Item.pieces (path ++ [k]) i, p.Legible braced
  blocks (path : List Key) (k : Key) (isElement : Bool) : (∀ k ∈ path, k.Fits) →
    Entries.KeyFits true (k, i) → (isElement = true → k.around.Blank) →
    ∀ b ∈ Item.blocks (path ++ [k]) isElement i, b.Legible
  comments (path path' : List Key) (k : Key) (isElement : Bool) : Entries.KeyFits true (k, i) →
    printed (Item.pieces (path ++ [k]) i) (Item.blocks (path' ++ [k]) isElement i) = Entries.comment (k, i)

theorem Entries.printed_of_items {braced : Bool} {entries : Entries}
    (keys : ∀ e ∈ entries, Entries.KeyFits true e) (items : ∀ e ∈ entries, Item.Printed braced e.2) :
    Entries.Printed braced entries := by
  induction entries with
  | nil =>
    exact ⟨by simp [Entries.pieces], by simp [Entries.blocks],
      by simp [Entries.pieces, Entries.blocks, printed, Item.entriesComments]⟩
  | cons e rest ih =>
    obtain ⟨k, i⟩ := e
    have key := keys (k, i) List.mem_cons_self
    have item := items (k, i) List.mem_cons_self
    have more := ih (fun e member => keys e (List.mem_cons_of_mem _ member))
      fun e member => items e (List.mem_cons_of_mem _ member)
    refine ⟨fun above fits p member => ?_, fun above fits b member => ?_, fun above above' => ?_⟩
    · rcases List.mem_append.mp member with first | later
      · exact item.pieces above k fits key p first
      · exact more.pieces above fits p later
    · rcases List.mem_append.mp member with first | later
      · exact item.blocks above k false fits key (by simp) b first
      · exact more.blocks above fits b later
    · rw [Entries.pieces, Entries.blocks, printed_append, item.comments above above' k false key, more.comments,
        Entries.comments_cons]

section Tables

variable {entries : Entries} {heading : Heading} {path : List Key} {isElement : Bool}

/-- A table prints a block of its own, and those of what is in it. -/
theorem legible_blocks (inner : Entries.Printed false entries) (fits : heading.around.Fits false)
    (headed : heading.form ≠ .header → heading.around = .usual) (keys : ∀ k ∈ path, k.Fits)
    (blank : Block.hasHeader ⟨path, isElement, heading, Piece.inOrder (Entries.pieces [] entries)⟩ = true →
      (pathAround path).Blank) (form : heading.form ≠ .dotted) (root : path = [] → heading.form ≠ .header) :
    ∀ b ∈ Item.blocks path isElement (.table entries heading), b.Legible := by
  intro b member
  rw [Item.blocks, if_neg form] at member
  rcases List.mem_cons.mp member with rfl | deeper
  · refine ⟨keys, blank, fits, fun bare => ?_, fun p member => ?_⟩
    · have other : heading.form ≠ .header := by
        intro shown
        have somewhere : path ≠ [] := fun none => root none shown
        simp [Block.hasHeader, shown, somewhere] at bare
      rw [headed other]
      rfl
    · exact inner.pieces [] (by simp) p ((Piece.inOrder_perm _).subset member)
  · exact inner.blocks path keys b deeper

theorem comments_blocks (inner : Entries.Printed false entries) (form : heading.form ≠ .dotted) :
    ((Item.blocks path isElement (.table entries heading)).map Block.comments).sum =
      (Item.table entries heading).comments := by
  have same := ((Piece.inOrder_perm (Entries.pieces [] entries)).map Piece.comments).sum_eq
  have all := inner.comments [] path
  rw [printed] at all
  rw [Item.blocks, if_neg form, List.singleton_append, List.map_cons, List.sum_cons, Block.comments, same,
    Item.comments, ← all, add_assoc]

end Tables

/-- Between braces there are no tables with headers. -/
theorem Item.Legible.blocks_eq {edited : Bool} {i : Item} (legible : i.Legible edited true) (path : List Key)
    (isElement : Bool) : i.blocks path isElement = [] := by
  cases legible <;> rw [Item.blocks]

theorem Entries.blocks_eq {entries : Entries} {edited : Bool}
    (items : ∀ e ∈ entries, e.2.Legible edited true) (above : List Key) :
    Entries.blocks above entries = [] := by
  induction entries with
  | nil => rfl
  | cons e rest ih =>
    obtain ⟨k, i⟩ := e
    rw [Entries.blocks, (items (k, i) List.mem_cons_self).blocks_eq,
      ih fun e member => items e (List.mem_cons_of_mem _ member), List.nil_append]

/-- A hidden table has no lines. -/
theorem Item.Hidden.pieces_eq {entries : Entries} {heading : Heading}
    (hidden : (Item.table entries heading).Hidden) : Entries.pieces [] entries = [] ∧ heading = .new := by
  obtain ⟨same, shape, below⟩ := hidden
  cases shape
  refine ⟨?_, rfl⟩
  induction entries with
  | nil => rfl
  | cons e rest ih =>
    obtain ⟨k, i⟩ := e
    obtain ⟨deeper, heading, rfl, form⟩ := below (k, i) List.mem_cons_self
    rw [Entries.pieces, Item.pieces, if_neg form, List.nil_append]
    exact ih fun e member => below e (List.mem_cons_of_mem _ member)

theorem printed_piece (p : Piece) : printed [p] [] = p.comments := by simp [printed]

namespace Item

theorem printed_value {braced : Bool} {v : Value} {spelling : Option String} {around : Trivia}
    (text : Settles .outside (spelling.getD v.text).toList (Toml.comments (spelling.getD "")))
    (fits : around.Fits braced) : (value v spelling around).Printed braced where
  pieces path k keys key p member := by
    rw [Item.pieces, List.mem_singleton] at member
    rw [member]
    exact legible_pair keys key.fits (key.leads rfl) fits text
  blocks path k isElement keys key blank b member := by
    rw [Item.blocks] at member
    cases member
  comments path path' k isElement key := by
    rw [Item.pieces, Item.blocks, printed_piece, comments_pair path k fits text]
    rfl

/-- A table between braces of its own. -/
theorem printed_braces {braced : Bool} {entries : Entries} {braces : Braces} {around : Trivia}
    (inner : entries.Printed true) (items : ∀ e ∈ entries, e.2.Legible true true)
    (trailing : Gap braces.trailing.toList) (fits : around.Fits braced) (own : braces.dotted = false) :
    (inline entries braces around).Printed braced := by
  have order := Piece.inOrder_perm (Entries.pieces [] entries)
  have same : ((Piece.inOrder (Entries.pieces [] entries)).map Piece.comments).sum = entriesComments entries := by
    have all := inner.comments [] []
    rw [printed, Entries.blocks_eq items, List.map_nil, List.sum_nil, add_zero] at all
    exact (order.map Piece.comments).sum_eq.trans all
  have text := (bracesText_reads (fun p member => inner.pieces [] (by simp) p (order.subset member))
    trailing).settles
  rw [same] at text
  refine ⟨fun path k keys key p member => ?_, fun path k isElement keys key blank b member => ?_,
    fun path path' k isElement key => ?_⟩
  · rw [Item.pieces, own, if_neg (by decide), List.mem_singleton] at member
    rw [member]
    exact legible_pair keys key.fits (key.leads (by rw [isPair, own]; rfl)) fits text
  · rw [Item.blocks] at member
    cases member
  · rw [Item.pieces, Item.blocks, own, if_neg (by decide), printed_piece, comments_pair path k fits text,
      Entries.comment, isPair, own, comments, add_assoc]
    rfl

/-- What dotted keys make is printed with its entries. -/
theorem printed_dotted {braced : Bool} {i : Item} {entries : Entries} (inner : entries.Printed braced)
    (blocks : ∀ path isElement, i.blocks path isElement = Entries.blocks path entries)
    (pieces : ∀ path, i.pieces path = Entries.pieces path entries) (whole : i.isPair = false)
    (comments : i.comments = entriesComments entries) : i.Printed braced where
  pieces path k keys key p member := inner.pieces _ (fits_append keys key.fits) p (pieces _ ▸ member)
  blocks path k isElement keys key blank b member :=
    inner.blocks _ (fits_append keys key.fits) b (blocks _ _ ▸ member)
  comments path path' k isElement key := by
    rw [pieces, blocks, inner.comments, Entries.comment, whole, comments]
    exact (zero_add _).symm

theorem printed_table {entries : Entries} {heading : Heading} (inner : Entries.Printed false entries)
    (fits : heading.around.Fits false) (headed : heading.form ≠ .header → heading.around = .usual)
    (form : heading.form ≠ .dotted) : (table entries heading).Printed false where
  pieces path k keys key p member := by
    rw [Item.pieces, if_neg form] at member
    cases member
  blocks path k isElement keys key blank b member := by
    refine legible_blocks inner fits headed (fits_append keys key.fits) (fun shown => ?_) form (by simp) b
      member
    rw [pathAround_append]
    rcases key.blank rfl with around | ⟨-, hidden⟩
    · exact around
    · obtain ⟨none, rfl⟩ := hidden.pieces_eq
      refine blank ?_
      rw [none] at shown
      simpa [Block.hasHeader, Heading.new, Piece.inOrder] using shown
  comments path path' k isElement key := by
    rw [Item.pieces, if_neg form, printed, List.map_nil, List.sum_nil, zero_add,
      comments_blocks inner form, Entries.comment]
    exact (zero_add _).symm

theorem mem_blocksOfElements {path : List Key} {elements : List Item} {b : Block}
    (member : b ∈ blocksOfElements path elements) : ∃ i ∈ elements, b ∈ blocks path true i := by
  induction elements with
  | nil => cases member
  | cons i rest ih =>
    rcases List.mem_append.mp member with first | later
    · exact ⟨i, List.mem_cons_self, first⟩
    · obtain ⟨j, found, inside⟩ := ih later
      exact ⟨j, List.mem_cons_of_mem _ found, inside⟩

theorem comments_blocksOfElements {path : List Key} {elements : List Item}
    (each : ∀ i ∈ elements, ((blocks path true i).map Block.comments).sum = i.comments) :
    ((blocksOfElements path elements).map Block.comments).sum = elementsComments elements := by
  induction elements with
  | nil => rfl
  | cons i rest ih =>
    rw [blocksOfElements, List.map_append, List.sum_append, each i List.mem_cons_self,
      ih fun j member => each j (List.mem_cons_of_mem _ member), elementsComments]

theorem printed_elements {elements : List Item}
    (headed : ∀ i ∈ elements, ∃ entries heading, i = table entries heading ∧ heading.form = .header)
    (items : ∀ i ∈ elements, i.Printed false) : (tables elements).Printed false := by
  have element {k : Key} {i : Item} (key : Entries.KeyFits true (k, tables elements)) (member : i ∈ elements) :
      Entries.KeyFits true (k, i) ∧ k.around.Blank := by
    obtain ⟨entries, heading, rfl, -⟩ := headed i member
    have blank : k.around.Blank := by
      rcases key.blank rfl with around | ⟨-, _, shape, -⟩
      · exact around
      · cases shape
    exact ⟨⟨key.fits, by simp [isPair], fun _ => .inl blank⟩, blank⟩
  refine ⟨fun path k keys key p member => ?_, fun path k isElement keys key blank b member => ?_,
    fun path path' k isElement key => ?_⟩
  · rw [Item.pieces] at member
    cases member
  · rw [Item.blocks] at member
    obtain ⟨i, found, inside⟩ := mem_blocksOfElements member
    obtain ⟨fits, around⟩ := element key found
    exact (items i found).blocks path k true keys fits (fun _ => around) b inside
  · have each (i : Item) (member : i ∈ elements) :
        ((blocks (path' ++ [k]) true i).map Block.comments).sum = i.comments := by
      have whole := (items i member).comments [] path' k true (element key member).1
      obtain ⟨entries, heading, rfl, form⟩ := headed i member
      rw [Item.pieces, if_neg (by simp [form]), printed, Entries.comment, isPair] at whole
      simpa using whole
    rw [Item.pieces, Item.blocks, printed, comments_blocksOfElements each, Entries.comment, isPair, comments]
    rfl

theorem Legible.printed {braced : Bool} {i : Item} (legible : i.Legible true braced) :
    i.Printed braced := by
  induction legible with
  | value text fits => exact printed_value text fits
  | inline keys items trailing fits dotted ih =>
    rename_i entries braces around
    have inner := Entries.printed_of_items keys ih
    cases own : braces.dotted with
    | false => exact printed_braces inner items trailing fits own
    | true =>
      obtain ⟨bare, bare'⟩ := dotted own
      refine printed_dotted (inner.weaken _) (fun path isElement => ?_) (fun path => ?_) ?_ ?_
      · rw [Item.blocks, Entries.blocks_eq items]
      · rw [Item.pieces, if_pos own]
      · rw [isPair, own]
        rfl
      · rw [comments, bare, bare', zero_add, add_zero]
  | table keys items fits headed ih =>
    rename_i entries heading
    have inner := Entries.printed_of_items keys ih
    by_cases form : heading.form = .dotted
    · refine printed_dotted inner (fun path isElement => ?_) (fun path => ?_) rfl ?_
      · rw [Item.blocks, if_pos form, List.nil_append]
      · rw [Item.pieces, if_pos form]
      · rw [comments, headed (by simp [form])]
        exact zero_add _
    · exact printed_table inner fits headed form
  | tables headed items ih => exact printed_elements headed ih

end Item

/-! ## Headers and lines -/

theorem Blank.contains_break {s : String} (blank : Blank s.toList) : s.contains '\n' = false := by
  have none : '\n' ∉ s.toList := fun member => by simpa using blank _ member
  simp [none]

namespace Block

variable {b : Block}

theorem Legible.headerText_reads (legible : b.Legible) (shown : b.hasHeader = true) (first : Bool) :
    Reads .outside (b.headerText first).toList .outside b.heading.around.comments := by
  have around := legible.blank shown
  have silent : (pathAround b.path).comments = 0 := by
    rw [Trivia.comments, around.before.comments_eq, around.after.comments_eq, add_zero]
  have path := pathText_settles legible.keys around.before.gap around.after blank_empty blank_empty
  rw [silent] at path
  have brackets (opening closing : String) (plain : PlainText opening) (plain' : PlainText closing) :
      Settles .outside (opening ++ pathText b.path (pathAround b.path) "" "" ++ closing).toList 0 := by
    rw [String.append_assoc]
    exact PlainText.before plain (Silent.append path (open_plain plain') (reads_plain plain').settles)
  have bracketed : Settles .outside (if b.isElement
      then "[[" ++ pathText b.path (pathAround b.path) "" "" ++ "]]"
      else "[" ++ pathText b.path (pathAround b.path) "" "" ++ "]").toList 0 := by
    split
    · exact brackets _ _ (by decide) (by decide)
    · exact brackets _ _ (by decide) (by decide)
  have front : Gap (if first then "" else "\n").toList ∧ Toml.comments (if first then "" else "\n") = 0 := by
    split
    · exact ⟨gap_nil, gap_nil.reads.scan_eq⟩
    · exact ⟨⟨reads_break, by simp [Open]⟩, reads_break.scan_eq⟩
  have whole := wrap_line legible.around front.1 front.2 bracketed
  rw [add_zero] at whole
  simpa [headerText, around.before.contains_break] using whole

theorem lines_reads {pieces : List Piece} (legible : ∀ p ∈ pieces, p.Legible false) :
    Reads .outside (String.join (pieces.map fun p => pairText p "" " " "" ++ "\n")).toList .outside
      (pieces.map Piece.comments).sum := by
  induction pieces with
  | nil => exact .nil _
  | cons p rest ih =>
    have more := ih fun p member => legible p (List.mem_cons_of_mem _ member)
    have whole := (legible p List.mem_cons_self).line_reads.append more
    rw [← String.toList_append] at whole
    simpa [String.join_cons] using whole

theorem Legible.text_reads (legible : b.Legible) (first : Bool) :
    Reads .outside (b.text first).toList .outside b.comments := by
  have lines := lines_reads legible.pieces
  rw [text, String.toList_append]
  by_cases shown : b.hasHeader = true
  · rw [if_pos shown]
    exact (legible.headerText_reads shown first).append lines
  · rw [if_neg shown, comments, legible.silent (by simpa using shown)]
    exact (Reads.nil _).append lines

theorem inOrder_perm (blocks : List Block) : (inOrder blocks).Perm blocks := by
  have numbered (seen : List (Nat × Block)) (n : Nat) :
      ((blocks.foldl (fun (acc : List (Nat × Block) × Nat) b =>
        let n := b.heading.position.getD acc.2
        (acc.1 ++ [(n, b)], n)) (seen, n)).1).map (·.2) = seen.map (·.2) ++ blocks := by
    induction blocks generalizing seen n with
    | nil => simp
    | cons b rest ih => simp [ih]
  exact ((List.mergeSort_perm _ _).map _).trans (.of_eq (numbered [] 0))

end Block

/-- The tables of a text, one after the other. -/
theorem body_reads {blocks : List Block} (legible : ∀ b ∈ blocks, b.Legible) {before : String}
    {cs : Multiset String} (reads : Reads .outside before.toList .outside cs) (first : Bool) :
    Reads .outside (blocks.foldl (fun (acc : String × Bool) b =>
      (acc.1 ++ b.text acc.2, acc.2 && b.isEmpty)) (before, first)).1.toList .outside
      (cs + (blocks.map Block.comments).sum) := by
  induction blocks generalizing before cs first with
  | nil => simpa using reads
  | cons b rest ih =>
    have next := reads.append ((legible b List.mem_cons_self).text_reads first)
    rw [← String.toList_append] at next
    rw [List.foldl_cons, List.map_cons, List.sum_cons, ← add_assoc]
    exact ih (fun b member => legible b (List.mem_cons_of_mem _ member)) next _

/-- A legible document is printed with the comments it has. -/
theorem Document.comments_text {d : Document} (legible : d.entries.Legible true false) :
    Toml.comments d.text = d.comments := by
  have inner := Entries.printed_of_items legible.keys fun e member => (legible.items e member).printed
  have order := Block.inOrder_perm (Item.blocks [] false (.table d.entries .new))
  have all : ∀ b ∈ Item.blocks [] false (.table d.entries .new), b.Legible :=
    legible_blocks inner (Trivia.fits_usual false) (fun _ => rfl) (by simp) (by simp [Block.hasHeader])
      (by simp [Heading.new]) (by simp [Heading.new])
  have none : Reads .outside "".toList .outside 0 := Reads.nil _
  have whole := body_reads (fun b member => all b (order.subset member)) none true
  have sum : ((Block.inOrder (Item.blocks [] false (.table d.entries .new))).map Block.comments).sum =
      Item.entriesComments d.entries := by
    rw [(order.map Block.comments).sum_eq, comments_blocks inner (by simp [Heading.new]), Item.comments]
    exact zero_add _
  rw [zero_add, sum] at whole
  rw [text, Toml.comments, String.toList_append, comments]
  exact whole _

/-- An object that is stored takes away the comments of what it replaces, and no others. -/
theorem Document.comments_update {text : String} {d : Document} (read : parse? text = some d)
    {m : Json.Members} {item : Item} (made : Item.ofJson? (.obj m) = some item) (path : List String) :
    Toml.comments text =
      Toml.comments (d.update (some item) path).text + d.entries.replaced false path := by
  have fresh := Item.fresh_ofJson made
  obtain ⟨below, -, rfl⟩ := Option.map_eq_some_iff.mp made
  obtain ⟨legible, whole⟩ := parse?_comments read
  obtain ⟨legible', sum⟩ := Entries.rewritten_assign fresh path _ _ (parse?_sound read) legible
  rw [comments_text legible', ← whole, comments, comments, sum]
  exact add_right_comm _ _ _

end LinterClient.Toml
