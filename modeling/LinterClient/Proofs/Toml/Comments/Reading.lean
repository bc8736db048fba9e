import LinterClient.Proofs.Toml.Comments.Assembly
import LinterClient.Proofs.Toml.Comments.Words

/-!
A document that was read has all comments of its text.

Each part of the parser passes some characters; what it keeps of them has the comments in them.
-/

namespace LinterClient.Toml.Parser

variable {s t raw rest : List Char}

theorem toList_kept (raw : List Char) : (kept raw).toList = raw.filter (· ≠ '\r') := by
  rw [kept, String.toList_ofList]

theorem between_eq (whole : s = raw ++ rest) : between s rest = kept raw := by
  rw [between, whole, List.length_append, Nat.add_sub_cancel, List.take_left]

theorem comments_kept (raw : List Char) : comments (kept raw) = scan .outside raw := by
  rw [comments, toList_kept, scan_filter_eq]

/-! ## Blanks, comments and line breaks -/

theorem skipBlanks_blank (s : List Char) : ∃ raw, s = raw ++ skipBlanks s ∧ Blank raw := by
  refine ⟨s.takeWhile isBlank, List.takeWhile_append_dropWhile.symm, fun c member => ?_⟩
  simpa [isBlank] using List.all_eq_true.mp List.all_takeWhile c member

theorem reads_comment {seen : List Char} (inLine : ∀ c ∈ s, isLineEnd c = false) :
    Reads (.comment seen) s (.comment (s.reverse ++ seen)) 0 := by
  induction s generalizing seen with
  | nil => exact .nil _
  | cons c s ih =>
    have first := inLine c List.mem_cons_self
    simp only [isLineEnd, Bool.or_eq_false_iff, decide_eq_false_iff_not] at first
    intro rest
    have more : Reads (.comment (c :: seen)) s (.comment (s.reverse ++ c :: seen)) 0 :=
      ih fun c member => inLine c (List.mem_cons_of_mem _ member)
    have later := more rest
    rw [List.cons_append, scan_cons first.2, if_neg first.1, zero_add, Place.next, if_neg first.1, later,
      List.reverse_cons, List.append_assoc, List.singleton_append]

theorem tail_comment (inLine : ∀ c ∈ s, isLineEnd c = false) : Tail ('#' :: s) := by
  have start : Reads .outside ('#' :: s) (.comment s.reverse) 0 := by
    have first : Reads .outside ['#'] (.comment []) 0 := reads_one rfl (by decide)
    simpa using first.before (reads_comment inLine)
  have whole : scan .outside ('#' :: s) = {String.ofList s} := by
    have alone := start []
    rwa [List.append_nil, zero_add, scan, Place.ended, List.reverse_reverse] at alone
  refine ⟨fun rest => ?_, open_cons (by decide) (by simp)⟩
  rw [List.append_assoc, start, zero_add, List.singleton_append, scan_cons (by decide), if_pos rfl, Place.ended,
    List.reverse_reverse, whole, Place.next, if_pos rfl]

/-- What follows a comment is a line break, or nothing. -/
def Halts (s : List Char) : Prop := ∀ c ∈ s.head?, isLineEnd c = true

theorem skipComment_tail (read : skipComment s = some rest) :
    ∃ raw, s = raw ++ rest ∧ Tail raw ∧ (raw = [] ∨ Halts rest) := by
  rw [skipComment.eq_def] at read
  split at read
  · rename_i s
    split at read
    · cases read
    · cases read
      refine ⟨'#' :: s.takeWhile fun c => !isLineEnd c, ?_, tail_comment fun c member => ?_, .inr ?_⟩
      · rw [List.cons_append, List.takeWhile_append_dropWhile]
      · simpa using List.all_eq_true.mp List.all_takeWhile c member
      · intro c first
        have stopped := List.head?_dropWhile_not (fun c => !isLineEnd c) s
        rw [Option.mem_def.mp first] at stopped
        simpa using stopped
  · cases read
    exact ⟨[], rfl, gap_nil.tail, .inl rfl⟩

/-- A line break ends a comment. -/
theorem gap_of_lineBreak (tail : Tail raw) (break_ : lineBreak? s = some rest) :
    ∃ line, s = line ++ rest ∧ Gap (raw ++ line) ∧ scan .outside (raw ++ line) = scan .outside raw := by
  rw [lineBreak?.eq_def] at break_
  split at break_
  · cases break_
    have whole := tail.reads.scan_eq
    exact ⟨['\n'], rfl, ⟨by rw [whole]; exact tail.reads, tail.opens.append (by simp [Open])⟩, whole⟩
  · cases break_
    have same (t : List Char) : scan .outside (raw ++ ['\r', '\n'] ++ t) = scan .outside (raw ++ ['\n'] ++ t) := by
      rw [← scan_filter, ← scan_filter _ (raw ++ ['\n'])]
      simp
    have reads : Reads .outside (raw ++ ['\r', '\n']) .outside (scan .outside raw) :=
      fun t => by rw [same, tail.reads]
    exact ⟨['\r', '\n'], rfl, ⟨by rw [reads.scan_eq]; exact reads, tail.opens.append (by simp [Open])⟩,
      reads.scan_eq⟩
  · cases break_

theorem open_of_lineBreak (break_ : lineBreak? s = some rest) : Open s := by
  rw [lineBreak?.eq_def] at break_
  split at break_ <;> simp [Open] at break_ ⊢

/-- Trivia leave a reader outside if something follows in the line. -/
theorem skipTrivia_gap {fuel : Nat} (read : skipTrivia fuel s = some rest) :
    ∃ raw, s = raw ++ rest ∧ Open raw ∧ (¬ Halts rest → Gap raw) := by
  induction fuel generalizing s with
  | zero =>
    cases read
    exact ⟨[], rfl, trivial, fun _ => gap_nil⟩
  | succ fuel ih =>
    simp only [skipTrivia, Option.bind_eq_bind, Option.bind_eq_some_iff] at read
    obtain ⟨after, comment, read⟩ := read
    obtain ⟨blanks, whole, blank⟩ := skipBlanks_blank s
    obtain ⟨text, passed, tail, ending⟩ := skipComment_tail comment
    rw [whole, passed]
    split at read
    · rename_i next break_
      obtain ⟨line, same, gap, -⟩ := gap_of_lineBreak tail break_
      obtain ⟨raw, rfl, opens, rest_⟩ := ih read
      refine ⟨blanks ++ ((text ++ line) ++ raw), by simp [same], ?_, fun more => ?_⟩
      · exact blank.opens.append (gap.opens.append opens)
      · exact blank.gap.append (gap.append (rest_ more))
    · cases read
      refine ⟨blanks ++ text, by simp, blank.opens.append tail.opens, fun more => ?_⟩
      obtain rfl := ending.resolve_right more
      simpa using blank.gap

theorem trivia_gap (read : trivia s = some rest) :
    ∃ raw, s = raw ++ rest ∧ Open raw ∧ (¬ Halts rest → Gap raw) := skipTrivia_gap read

/-- The rest of a line: its comment, and what comes on the lines below. -/
theorem endLine_tail {text : String} (read : endLine s = some (text, rest)) :
    Open s ∧ ∃ raw, text = kept raw ∧ Tail raw ∧
      scan .outside s = scan .outside raw + scan .outside rest := by
  simp only [endLine, Option.bind_eq_bind, Option.bind_eq_some_iff] at read
  obtain ⟨after, comment, read⟩ := read
  obtain ⟨blanks, whole, blank⟩ := skipBlanks_blank s
  obtain ⟨raw, passed, tail, -⟩ := skipComment_tail comment
  have all : Tail (blanks ++ raw) := by
    refine ⟨?_, blank.opens.append tail.opens⟩
    rw [List.append_assoc, blank.gap.scan_append, blank.scan_eq, zero_add]
    exact blank.reads.before tail.reads
  have shape : s = (blanks ++ raw) ++ after := by rw [List.append_assoc, ← passed, ← whole]
  split at read
  · rename_i empty
    obtain rfl := List.isEmpty_iff.mp empty
    cases read
    refine ⟨?_, blanks ++ raw, between_eq shape, all, ?_⟩
    · rw [shape, List.append_nil]
      exact all.opens
    · rw [shape, List.append_nil]
      exact (add_zero _).symm
  · obtain ⟨next, break_, same⟩ := Option.map_eq_some_iff.mp read
    cases same
    obtain ⟨line, rfl, gap, comments⟩ := gap_of_lineBreak all break_
    refine ⟨?_, blanks ++ raw, between_eq shape, all, ?_⟩
    · rw [shape]
      exact all.opens.append (open_of_lineBreak break_)
    · rw [shape, ← List.append_assoc, gap.reads, comments]

/-! ## Keys -/

theorem gap_kept (gap : Gap raw) : Gap (kept raw).toList := by
  rw [toList_kept]
  exact gap.filter

theorem tail_kept (tail : Tail raw) : Tail (kept raw).toList := by
  rw [toList_kept]
  exact tail.filter

theorem blank_kept (blank : Blank raw) : Blank (kept raw).toList := by
  rw [toList_kept]
  exact fun c member => blank c (List.mem_filter.mp member).1

/-- A key of a path as it is read. -/
structure KeyRead (k : Key) : Prop where
  fits : k.Fits
  around : k.around = .usual

theorem keys_settle {fuel : Nat} {seen path : List Key} (read : keys fuel seen s = some (path, rest)) :
    ∃ raw, s = raw ++ rest ∧ Settles .outside raw 0 ∧
      ((∀ k ∈ seen, KeyRead k) → ∀ k ∈ path, KeyRead k) := by
  induction fuel generalizing seen s with
  | zero => cases read
  | succ fuel ih =>
    simp only [keys, Option.bind_eq_bind, Option.bind_eq_some_iff] at read
    obtain ⟨⟨name, after⟩, one, read⟩ := read
    obtain ⟨front, whole, frontBlank⟩ := skipBlanks_blank s
    obtain ⟨raw, passed, settles⟩ := Quoted.readKey?_settles one
    obtain ⟨back, left, backBlank⟩ := skipBlanks_blank after
    have first := between_eq whole
    have middle := between_eq passed
    have last := between_eq left
    have key : KeyRead ⟨name, some (between (skipBlanks s) after), .usual,
        ⟨some (between s (skipBlanks s)), some (between after (skipBlanks after))⟩, none⟩ := by
      refine ⟨⟨?_, ?_, ?_⟩, rfl⟩
      · simpa [Key.text, middle, toList_kept] using settles.filter
      · simpa [first] using blank_kept frontBlank
      · simpa [last] using blank_kept backBlank
    have added (old : ∀ k ∈ seen, KeyRead k) (k : Key) (member : k ∈ _ :: seen) : KeyRead k :=
      (List.mem_cons.mp member).elim (fun same => same ▸ key) (old k)
    have passes : Settles .outside (front ++ (raw ++ back)) 0 :=
      frontBlank.reads.before_settles (by
        simpa using settles.append backBlank.opens backBlank.reads.settles)
    have shape : s = (front ++ (raw ++ back)) ++ skipBlanks after := by
      rw [List.append_assoc, List.append_assoc, ← left, ← passed, ← whole]
    rw [shape]
    dsimp only at read
    split at read
    · rename_i next dot
      obtain ⟨more, rfl, others, each⟩ := ih read
      refine ⟨front ++ (raw ++ back) ++ '.' :: more, by rw [dot, List.append_assoc _ ('.' :: more)]; rfl, ?_,
        fun old => each (added old)⟩
      have dotted : Settles .outside ('.' :: more) 0 :=
        (reads_plain (s := ['.']) (by decide)).before_settles others
      simpa using passes.append (open_cons (by decide) (by simp)) dotted
    · simp only [Option.some.injEq, Prod.mk.injEq] at read
      obtain ⟨rfl, rfl⟩ := read
      exact ⟨_, rfl, passes, added⟩

theorem KeyRead.bare {k : Key} (read : KeyRead k) : k.Bare :=
  ⟨read.fits, by rw [read.around]; exact Trivia.blank_usual⟩

/-- A key that ends a path; its blanks stand around the whole path, behind other trivia. -/
structure LastRead (before : String) (k : Key) : Prop where
  fits : k.Fits
  after : Blank (k.around.after.getD "").toList
  before : ∃ blanks : String, Blank blanks.toList ∧ k.around.before = some (before ++ blanks)

theorem settle_read (before : String) (remaining : Nat) {last : Key} {path : List Key} (lastRead : KeyRead last)
    (pathRead : ∀ k ∈ path, KeyRead k) : LastRead before (settle before remaining last path).1 ∧
      ∀ k ∈ (settle before remaining last path).2, KeyRead k := by
  have opened (k : Key) (read : KeyRead k) :
      KeyRead { k with inside := { k.inside with before := some "" } } :=
    ⟨⟨read.fits.text, blank_nil, read.fits.inside.after⟩, read.around⟩
  have head : KeyRead (path.getLast?.getD last) := by
    cases ending : path.getLast? with
    | none => exact lastRead
    | some k => exact pathRead k (List.mem_of_getLast? ending)
  have closes (inside : Trivia) (blank : Blank (inside.before.getD "").toList) :
      LastRead before { last with
        around := ⟨some (before ++ (path.getLast?.getD last).inside.before.getD ""), last.inside.after⟩
        inside := { inside with after := some "" }
        remaining := some remaining } :=
    ⟨⟨lastRead.fits.text, blank, blank_nil⟩, lastRead.fits.inside.after,
      ⟨_, head.fits.inside.before, rfl⟩⟩
  rw [settle]
  cases order : path.reverse with
  | nil => exact ⟨closes ⟨some "", none⟩ blank_nil, by simp⟩
  | cons first others =>
    have each (k : Key) (member : k ∈ first :: others) : KeyRead k :=
      pathRead k (List.mem_reverse.mp (order ▸ member))
    refine ⟨closes last.inside lastRead.fits.inside.before, fun k member => ?_⟩
    rcases List.mem_cons.mp member with rfl | later
    · exact opened first (each first List.mem_cons_self)
    · exact each k (List.mem_cons_of_mem _ later)

theorem keyPath_settles {before : String} {remaining : Nat} {key : Key} {path : List Key}
    (read : keyPath before remaining s = some (key, path, rest)) :
    ∃ raw, s = raw ++ rest ∧ Settles .outside raw 0 ∧ LastRead before key ∧ ∀ k ∈ path, KeyRead k := by
  simp only [keyPath, Option.bind_eq_bind, Option.bind_eq_some_iff] at read
  obtain ⟨⟨all, after⟩, found, read⟩ := read
  obtain ⟨raw, whole, settles, each⟩ := keys_settle found
  have all_ := each (by simp)
  cases all with
  | nil => cases read
  | cons last path' =>
    simp only [Option.some.injEq, Prod.mk.injEq] at read
    obtain ⟨rfl, rfl, rfl⟩ := read
    obtain ⟨ends, others⟩ := settle_read before remaining (all_ last List.mem_cons_self)
      fun k member => all_ k (List.mem_cons_of_mem _ member)
    exact ⟨raw, whole, settles, ends, others⟩

theorem LastRead.leads {before : String} {k : Key} (read : LastRead before k) (gap : Gap before.toList) :
    k.Leads := by
  obtain ⟨blanks, blank, same⟩ := read.before
  refine ⟨?_, read.after⟩
  rw [same, Option.getD_some, String.toList_append]
  exact gap.append blank.gap

theorem LastRead.comments {before : String} {k : Key} (read : LastRead before k) (gap : Gap before.toList) :
    k.around.comments = Toml.comments before := by
  obtain ⟨blanks, blank, same⟩ := read.before
  have after : Toml.comments (k.around.after.getD "") = 0 := read.after.scan_eq
  rw [Trivia.comments, after, add_zero, same, Option.getD_some, Toml.comments, String.toList_append,
    gap.scan_append, blank.scan_eq, add_zero]
  rfl

theorem LastRead.bare {k : Key} (read : LastRead "" k) : k.Bare := by
  obtain ⟨blanks, blank, same⟩ := read.before
  refine ⟨read.fits, ?_, read.after⟩
  rw [same, Option.getD_some, String.toList_append]
  exact blank

/-! ## Values -/

/-- An item that waits for what stands around it. -/
structure Ready (i : Item) : Prop where
  pair (around : Trivia) : (setAround around i).isPair = true
  comments (around : Trivia) : (setAround around i).comments = around.comments + i.comments
  legible (around : Trivia) (braced : Bool) :
    around.Fits braced → (setAround around i).Legible false braced

theorem ready_value (v : Value) {spelling : String}
    (settles : Settles .outside spelling.toList (Toml.comments spelling)) :
    Ready (.value v (some spelling) .usual) where
  pair _ := rfl
  comments around := by
    rw [setAround, Item.comments, Item.comments]
    exact congrArg _ (zero_add _).symm
  legible _ _ fits := .value settles fits

theorem comments_value (v : Value) (spelling : String) :
    (Item.value v (some spelling) .usual).comments = Toml.comments spelling :=
  zero_add _

theorem ready_inline {entries : Entries} (legible : entries.Legible false true) {comma : Bool}
    {trailing : String} (gap : Gap trailing.toList) : Ready (.inline entries ⟨false, comma, trailing⟩ .usual) where
  pair _ := rfl
  comments around := by
    have usual : Trivia.usual.comments = 0 := rfl
    simp only [setAround, Item.comments, usual, zero_add, add_assoc]
  legible _ _ fits := .inline legible.keys legible.items gap fits (by simp)

theorem comments_inline (entries : Entries) (comma : Bool) (trailing : String) :
    (Item.inline entries ⟨false, comma, trailing⟩ .usual).comments =
      Item.entriesComments entries + Toml.comments trailing := by
  have usual : Trivia.usual.comments = 0 := rfl
  rw [Item.comments, usual, zero_add]

theorem settles_kept {cs : Multiset String} (settles : Settles .outside raw cs) :
    Toml.comments (kept raw) = cs ∧
      Settles .outside (kept raw).toList (Toml.comments (kept raw)) := by
  rw [comments_kept, settles.scan_eq, toList_kept]
  exact ⟨rfl, settles.filter⟩

theorem word_eq (s : List Char) : s = (word s).1 ++ (word s).2 := by
  rw [word.eq_def]
  dsimp only
  split
  · rename_i c more rest
    split
    · rw [List.append_assoc, List.cons_append, List.takeWhile_append_dropWhile, ← rest,
        List.takeWhile_append_dropWhile]
    · exact List.takeWhile_append_dropWhile.symm
  · exact List.takeWhile_append_dropWhile.symm

/-- What a value was read from: it settles, and its comments are the item's. -/
def ReadFrom (s rest : List Char) (i : Item) : Prop :=
  ∃ raw, s = raw ++ rest ∧ Settles .outside raw i.comments

theorem spelled {cs : Multiset String} (v : Value) (whole : s = raw ++ rest)
    (settles : Settles .outside raw cs) : Ready (.value v (some (between s rest)) .usual) ∧
      ReadFrom s rest (.value v (some (between s rest)) .usual) := by
  rw [between_eq whole]
  obtain ⟨same, kept_⟩ := settles_kept settles
  exact ⟨ready_value v kept_, raw, whole, by rwa [comments_value, same]⟩

theorem reads_plain_one {c : Char} (plain : IsPlain c) : Reads .outside [c] .outside 0 :=
  reads_plain (by simpa using plain)

/-- Blanks and comments before something that is no line end. -/
theorem trivia_before {c : Char} (read : trivia s = some (c :: rest)) (visible : isLineEnd c = false) :
    ∃ raw, s = raw ++ c :: rest ∧ Gap raw := by
  obtain ⟨raw, whole, -, gap⟩ := trivia_gap read
  exact ⟨raw, whole, gap fun halts => by simp [halts c rfl] at visible⟩

theorem item_lineEnd (fuel depth : Nat) {c : Char} (ends : isLineEnd c = true) (s : List Char) :
    item fuel depth (c :: s) = none := by
  have nothing : ofWord [] = none := by decide
  rcases (by simpa [isLineEnd] using ends : c = '\n' ∨ c = '\r') with rfl | rfl <;> cases fuel <;>
    simp [item, word, isEnd, isLineEnd, nothing]

/-- Blanks and comments before a value. -/
theorem trivia_item {fuel depth : Nat} {i : Item} (read : trivia s = some t)
    (one : item fuel depth t = some (i, rest)) : ∃ raw, s = raw ++ t ∧ Gap raw := by
  cases t with
  | nil => cases fuel <;> cases one
  | cons c t =>
    refine trivia_before read (Bool.eq_false_iff.mpr fun ends => ?_)
    rw [item_lineEnd fuel depth ends] at one
    cases one

theorem keys_nameless {fuel : Nat} {seen : List Key} (nameless : Quoted.readKey? (skipBlanks s) = none) :
    keys fuel seen s = none := by
  cases fuel with
  | zero => rfl
  | succ fuel => simp only [keys, nameless, Option.bind_eq_bind, Option.bind_none]

/-- A path does not start at the end of a line. -/
theorem keyPath_not_halts {before : String} {remaining : Nat} {result : Key × List Key × List Char}
    (read : keyPath before remaining s = some result) : ¬ Halts s := by
  intro halts
  have bare : Quoted.isBare '\n' = false ∧ Quoted.isBare '\r' = false := by decide
  have nameless : Quoted.readKey? (skipBlanks s) = none := by
    cases s with
    | nil => rfl
    | cons c s =>
      rcases (by simpa [isLineEnd] using halts c rfl : c = '\n' ∨ c = '\r') with rfl | rfl <;>
        simp [skipBlanks, isBlank, Quoted.readKey?, bare]
  rw [keyPath, keys_nameless nameless] at read
  cases read

/-- A key with what stands before it, the equals sign, and a value. -/
theorem pair_settles {front path between value : List Char} {cs : Multiset String} (gap : Gap front)
    (key : Settles .outside path 0) (gap' : Gap between) (settles : Settles .outside value cs) :
    Settles .outside (front ++ (path ++ '=' :: (between ++ value)))
      (scan .outside front + (scan .outside between + cs)) := by
  have equals : Settles .outside ('=' :: (between ++ value)) (scan .outside between + cs) :=
    (reads_plain_one (c := '=') (by decide)).before_settles (gap'.reads.append_settles settles)
  have opens : Open ('=' :: (between ++ value)) := open_cons (by decide) (by simp)
  have pair := key.append opens equals
  rw [zero_add] at pair
  exact gap.reads.append_settles pair

/-- A table of which the rest was read. -/
structure TableRead (s rest : List Char) (seen : Entries) (i : Item) : Prop where
  ready : Ready i
  passes : ∃ raw cs, s = raw ++ rest ∧ Reads .outside raw .outside cs ∧
    i.comments = Item.entriesComments seen + cs

/-- Between braces, the item in a pair. -/
theorem keyFits_pair {before : String} {k : Key} {i : Item} (read : LastRead before k)
    (gap : Gap before.toList) (pair : i.isPair = true) : Entries.KeyFits false (k, i) :=
  ⟨read.fits, fun _ => read.leads gap, by simp [pair]⟩

/-- What is said of all that is read with so much fuel: of values, of the rest of an array, and of the rest
of a table between braces. -/
structure ReadsItems (fuel : Nat) : Prop where
  values {depth : Nat} {s rest : List Char} {i : Item} :
    item fuel depth s = some (i, rest) → Ready i ∧ ReadFrom s rest i
  arrays {depth : Nat} {seen vs : List Value} {s rest : List Char} :
    elements fuel depth seen s = some (vs, rest) →
      ∃ raw cs, s = raw ++ rest ∧ Reads .outside raw .outside cs
  tables {depth : Nat} {seen : Entries} {s rest : List Char} {i : Item} :
    seen.Sound → seen.Legible false true → pairs fuel depth seen s = some (i, rest) → TableRead s rest seen i

/-- A mark that closes something or goes on behind a gap, whatever else follows. -/
theorem open_mark {back : List Char} {c : Char} (opens : Open back) (plain : IsPlain c)
    (visible : isLineEnd c = false) (rest : List Char) : Open ((back ++ [c]) ++ rest) := by
  rw [List.append_assoc]
  refine opens.append (open_cons plain.2 ?_)
  rintro rfl
  simp [isLineEnd] at visible

namespace ReadsItems

variable {fuel depth : Nat}

theorem item_read {i : Item} (inner : ReadsItems fuel) (read : item (fuel + 1) depth s = some (i, rest)) :
    Ready i ∧ ReadFrom s rest i := by
  simp only [item, Option.bind_eq_bind] at read
  split at read
  · cases read
  · simp only [Option.bind_eq_some_iff, Option.some.injEq, Prod.mk.injEq] at read
    obtain ⟨⟨text, after⟩, quoted, rfl, rfl⟩ := read
    obtain ⟨raw, whole, settles⟩ := Quoted.read?_settles quoted
    exact spelled _ whole settles
  · simp only [Option.bind_eq_some_iff, Option.some.injEq, Prod.mk.injEq] at read
    obtain ⟨⟨text, after⟩, quoted, rfl, rfl⟩ := read
    obtain ⟨raw, whole, settles⟩ := Quoted.read?_settles quoted
    exact spelled _ whole settles
  · split at read
    · cases read
    · simp only [Option.bind_eq_some_iff, Option.some.injEq, Prod.mk.injEq] at read
      obtain ⟨⟨values, after⟩, array, rfl, rfl⟩ := read
      obtain ⟨raw, cs, rfl, reads⟩ := inner.arrays array
      exact spelled _ (List.cons_append ..).symm
        (((reads_plain_one (c := '[') (by decide)).before reads).settles)
  · split at read
    · cases read
    · obtain ⟨ready, raw, cs, rfl, reads, comments⟩ :=
        inner.tables Entries.sound_nil (Entries.legible_nil _ _) read
      refine ⟨ready, '\x7b' :: raw, rfl, ?_⟩
      rw [comments]
      simpa [Item.entriesComments] using
        ((reads_plain_one (c := '\x7b') (by decide)).before reads).settles
  · simp only [Option.bind_eq_some_iff, Option.some.injEq, Prod.mk.injEq] at read
    obtain ⟨v, found, rfl, rfl⟩ := read
    have plain := reads_plain (ofWord_plain found)
    have same := between_eq (word_eq s)
    rw [← same]
    exact spelled v (word_eq s) plain.settles

theorem elements_read {seen vs : List Value} (inner : ReadsItems fuel)
    (read : elements (fuel + 1) depth seen s = some (vs, rest)) :
    ∃ raw cs, s = raw ++ rest ∧ Reads .outside raw .outside cs := by
  simp only [elements, Option.bind_eq_bind, Option.bind_eq_some_iff] at read
  obtain ⟨start, skipped, read⟩ := read
  split at read
  · simp only [Option.some.injEq, Prod.mk.injEq] at read
    obtain ⟨-, rfl⟩ := read
    obtain ⟨raw, rfl, gap⟩ := trivia_before skipped (by decide)
    exact ⟨raw ++ [']'], _, by simp, gap.reads.append (reads_plain_one (by decide))⟩
  · simp only [Option.bind_eq_some_iff] at read
    obtain ⟨⟨i, after⟩, one, next, more, read⟩ := read
    obtain ⟨front, rfl, gap⟩ := trivia_item skipped one
    obtain ⟨-, raw, rfl, settles⟩ := inner.values one
    -- the element, up to the comma or the bracket behind it
    have through (c : Char) (t : List Char) (plain : IsPlain c) (visible : isLineEnd c = false)
        (next : trivia after = some (c :: t)) : ∃ raw' cs, front ++ (raw ++ after) = raw' ++ t ∧
          Reads .outside raw' .outside cs := by
      obtain ⟨back, rfl, gap'⟩ := trivia_before next visible
      exact ⟨front ++ (raw ++ (back ++ [c])), _, by simp, gap.reads.append
        (settles.append_reads (open_mark gap'.opens plain visible) (gap'.reads.append (reads_plain_one plain)))⟩
    split at read
    · obtain ⟨raw', cs, whole, reads⟩ := through _ _ (by decide) (by decide) more
      obtain ⟨raw'', cs', rfl, reads'⟩ := inner.arrays read
      exact ⟨raw' ++ raw'', cs + cs', by rw [whole, List.append_assoc], reads.append reads'⟩
    · simp only [Option.some.injEq, Prod.mk.injEq] at read
      obtain ⟨-, rfl⟩ := read
      exact through _ _ (by decide) (by decide) more
    · cases read

/-- A pair between braces, up to the mark behind it. -/
theorem pair_read {start afterEquals first more t : List Char} {c : Char} {k : Key} {path : List Key} {i : Item}
    {seen new : Entries} (inner : ReadsItems fuel) (sound : seen.Sound) (legible : seen.Legible false true)
    (skipped : trivia s = some start)
    (named : keyPath (between s start) start.length start = some (k, path, '=' :: afterEquals))
    (skipped' : trivia afterEquals = some first) (one : item fuel depth first = some (i, more))
    (skipped'' : trivia more = some (c :: t)) (plain : IsPlain c) (visible : isLineEnd c = false)
    (added : seen.addPair k (setAround ⟨some (between afterEquals first), some (between more (c :: t))⟩ i)
      false false path = some new) :
    new.Sound ∧ new.Legible false true ∧ ∃ raw cs, s = raw ++ t ∧ Reads .outside raw .outside cs ∧
      Item.entriesComments new = Item.entriesComments seen + cs := by
  obtain ⟨front, whole, -, frontGap⟩ := trivia_gap skipped
  have gap := frontGap (keyPath_not_halts named)
  rw [between_eq whole] at named
  obtain ⟨name, shape, nameSettles, last, bare⟩ := keyPath_settles named
  obtain ⟨mid, middle, midGap⟩ := trivia_item skipped' one
  obtain ⟨ready, raw, valued, settles⟩ := inner.values one
  obtain ⟨back, behind, backGap⟩ := trivia_before skipped'' visible
  rw [between_eq middle, between_eq behind] at added
  have fits : Trivia.Fits true ⟨some (kept mid), some (kept back)⟩ :=
    ⟨gap_kept midGap, (gap_kept backGap).tail, fun _ => gap_kept backGap⟩
  have keyFits := keyFits_pair last (gap_kept gap) (ready.pair ⟨some (kept mid), some (kept back)⟩)
  have brings := Entries.brings_pair keyFits (ready.legible _ true fits)
    (fun k member => (bare k member).bare) sound legible added
  have itemSound := sound_setAround ⟨some (kept mid), some (kept back)⟩ ((sound_item_pairs fuel).1 _ _ _ _ one)
  refine ⟨(sound.addPair itemSound added).1, brings.legible,
    (front ++ (name ++ '=' :: (mid ++ raw))) ++ (back ++ [c]), _, ?_,
    (pair_settles gap nameSettles midGap settles).append_reads (open_mark backGap.opens plain visible)
      (backGap.reads.append (reads_plain_one plain)), ?_⟩
  · rw [whole, shape, middle, valued, behind]
    simp
  · rw [brings.comments, Entries.comment, ready.pair, if_pos rfl, last.comments (gap_kept gap),
      ready.comments, Trivia.comments, Option.getD_some, Option.getD_some, comments_kept,
      comments_kept, comments_kept, add_zero]
    simp only [add_assoc, add_left_comm, add_comm]

theorem pairs_read {seen : Entries} {i : Item} (inner : ReadsItems fuel) (sound : seen.Sound)
    (legible : seen.Legible false true) (read : pairs (fuel + 1) depth seen s = some (i, rest)) :
    TableRead s rest seen i := by
  simp only [pairs, Option.bind_eq_bind, Option.bind_eq_some_iff] at read
  obtain ⟨start, skipped, read⟩ := read
  split at read
  · simp only [Option.some.injEq, Prod.mk.injEq] at read
    obtain ⟨rfl, rfl⟩ := read
    obtain ⟨raw, whole, gap⟩ := trivia_before skipped (by decide)
    rw [between_eq whole]
    refine ⟨ready_inline legible (gap_kept gap), raw ++ ['\x7d'], _, by simp [whole],
      gap.reads.append (reads_plain_one (by decide)), ?_⟩
    rw [comments_inline, comments_kept, add_zero]
  · simp only [Option.bind_eq_some_iff] at read
    obtain ⟨⟨key, path, after⟩, named, read⟩ := read
    dsimp only at read
    split at read
    · simp only [Option.bind_eq_some_iff] at read
      obtain ⟨first, skipped', ⟨i', more⟩, one, next, skipped'', new, added, read⟩ := read
      split at read
      · obtain ⟨sound', legible', raw', cs, whole, reads, comments⟩ := inner.pair_read sound legible skipped
          named skipped' one skipped'' (by decide) (by decide) added
        obtain ⟨ready', raw'', cs', rfl, reads', comments'⟩ := inner.tables sound' legible' read
        refine ⟨ready', raw' ++ raw'', cs + cs', by rw [whole, List.append_assoc], reads.append reads', ?_⟩
        rw [comments', comments, add_assoc]
      · simp only [Option.some.injEq, Prod.mk.injEq] at read
        obtain ⟨rfl, rfl⟩ := read
        obtain ⟨-, legible', raw', cs, whole, reads, comments⟩ := inner.pair_read sound legible skipped
          named skipped' one skipped'' (by decide) (by decide) added
        refine ⟨ready_inline legible' gap_nil, raw', cs, whole, reads, ?_⟩
        rw [← comments]
        exact (comments_inline _ _ _).trans (add_zero _)
      · cases read
    · cases read

end ReadsItems

theorem readsItems (fuel : Nat) : ReadsItems fuel := by
  induction fuel with
  | zero => constructor <;> intros <;> contradiction
  | succ fuel ih => exact ⟨ih.item_read, ih.elements_read, ih.pairs_read⟩

/-! ## Lines, headers and documents -/

theorem line_read {l : Line} (gap : Gap raw) (read : line (kept raw) s = some (l, rest)) :
    l.Legible ∧ scan .outside (raw ++ s) = l.comments + scan .outside rest := by
  have known := sound_line read
  simp only [line, Option.bind_eq_bind, Option.bind_eq_some_iff] at read
  obtain ⟨⟨key, path, after⟩, named, read⟩ := read
  obtain ⟨name, shape, nameSettles, last, bare⟩ := keyPath_settles named
  dsimp only at read
  split at read
  · rename_i afterEquals
    simp only [Option.bind_eq_some_iff, Option.some.injEq, Prod.mk.injEq] at read
    obtain ⟨⟨i, more⟩, one, ⟨text, next⟩, ended, rfl, rfl⟩ := read
    obtain ⟨mid, middle, blank⟩ := skipBlanks_blank afterEquals
    obtain ⟨ready, value, valued, settles⟩ := (readsItems _).values one
    obtain ⟨opens, ending, rfl, tail, remains⟩ := endLine_tail ended
    dsimp only at opens remains
    have between_ := between_eq middle
    have pairSettles := pair_settles gap nameSettles blank.gap settles
    have fits : Trivia.Fits false ⟨some (between afterEquals (skipBlanks afterEquals)), some (kept ending)⟩ := by
      rw [between_]
      exact ⟨gap_kept blank.gap, tail_kept tail, by simp⟩
    refine ⟨⟨fun k member => (bare k member).bare, keyFits_pair last (gap_kept gap) (ready.pair _),
      ready.legible _ _ fits, known⟩, ?_⟩
    have whole : raw ++ s = (raw ++ (name ++ '=' :: (mid ++ value))) ++ more := by
      rw [shape, middle, valued]
      simp
    rw [whole, pairSettles _ opens, remains, Line.comments, Entries.comment, ready.pair, if_pos rfl,
      last.comments (gap_kept gap), ready.comments, Trivia.comments, between_, Option.getD_some,
      Option.getD_some, comments_kept, comments_kept, comments_kept]
    simp only [add_assoc, add_left_comm, add_comm]
  · cases read

theorem header_read {sec : Section} (gap : Gap raw) (read : header (kept raw) s = some (sec, rest)) :
    sec.Legible ∧ scan .outside (raw ++ s) = sec.comments + scan .outside rest := by
  -- brackets are plain, be it one or two
  have bracketed {isElement : Bool} {inside more next : List Char} {key : Key} {path : List Key}
      {text : String} (opening closing : List Char) (plain : ∀ c ∈ opening ++ closing, IsPlain c)
      (whole : s = opening ++ inside) (named : keyPath "" 0 inside = some (key, path, closing ++ more))
      (ended : endLine more = some (text, next)) :
      Section.Legible ⟨path, key, isElement, ⟨some (kept raw), some text⟩, []⟩ ∧ scan .outside (raw ++ s) =
        Section.comments ⟨path, key, isElement, ⟨some (kept raw), some text⟩, []⟩ + scan .outside next := by
    obtain ⟨name, shape, settles, last, bare⟩ := keyPath_settles named
    obtain ⟨opens, ending, rfl, tail, remains⟩ := endLine_tail ended
    have first := reads_plain fun c member => plain c (List.mem_append_left _ member)
    have second := reads_plain fun c member => plain c (List.mem_append_right _ member)
    have closingOpens : Open closing := open_plain fun c member => plain c (List.mem_append_right _ member)
    refine ⟨⟨fun k member => (bare k member).bare, last.bare,
      ⟨gap_kept gap, tail_kept tail, by simp⟩, by simp⟩, ?_⟩
    have path_ : scan .outside (name ++ (closing ++ more)) = scan .outside more := by
      rw [settles _ (closingOpens.append opens), zero_add, second, zero_add]
    rw [gap.reads, whole, shape, first, zero_add, path_, remains, Section.comments, Trivia.comments,
      Option.getD_some, Option.getD_some, comments_kept, comments_kept, List.map_nil, List.sum_nil, add_zero,
      add_assoc]
  simp only [header, Option.bind_eq_bind] at read
  split at read
  case h_3 => cases read
  all_goals
    simp only [Option.bind_some, Option.bind_eq_some_iff] at read
    obtain ⟨⟨key, path, afterPath⟩, named, read⟩ := read
    dsimp only at read
    split at read
    case h_3 => cases read
    all_goals
      simp only [Option.bind_eq_some_iff, Option.some.injEq, Prod.mk.injEq] at read
      obtain ⟨⟨text, next⟩, ended, rfl, rfl⟩ := read
  · exact bracketed ['[', '['] [']', ']'] (by decide) rfl named ended
  · exact bracketed ['[', '['] [']'] (by decide) rfl named ended
  · exact bracketed ['['] [']', ']'] (by decide) rfl named ended
  · exact bracketed ['['] [']'] (by decide) rfl named ended

/-! ## Documents -/

def Progress.comments (p : Progress) : Multiset String :=
  (p.lines.map Line.comments).sum + (p.sections.map Section.comments).sum

structure Progress.Legible (p : Progress) : Prop where
  lines : ∀ l ∈ p.lines, l.Legible
  sections : ∀ s ∈ p.sections, s.Legible

theorem Progress.Legible.addLine {p : Progress} (legible : p.Legible) {l : Line} (line : l.Legible) :
    (p.addLine l).Legible ∧ (p.addLine l).comments = p.comments + l.comments := by
  have appended (lines : List Line) (old : ∀ k ∈ lines, k.Legible) : ∀ k ∈ lines ++ [l], k.Legible := by
    intro k member
    rcases List.mem_append.mp member with before | last
    · exact old k before
    · rw [List.mem_singleton.mp last]
      exact line
  rw [Progress.addLine]
  split
  · rename_i none_
    refine ⟨⟨appended _ legible.lines, legible.sections⟩, ?_⟩
    simp [Progress.comments, none_]
  · rename_i s others reading
    have each := legible.sections
    rw [reading] at each
    have current := each s List.mem_cons_self
    refine ⟨⟨legible.lines, fun s' member => ?_⟩, ?_⟩
    · rcases List.mem_cons.mp member with rfl | other
      · exact ⟨current.path, current.key, current.around, appended _ current.lines⟩
      · exact each s' (List.mem_cons_of_mem _ other)
    · simp only [Progress.comments, reading, List.map_cons, List.sum_cons, Section.comments, List.map_append,
        List.sum_append, List.map_nil, List.sum_nil, add_zero]
      simp only [add_assoc, add_left_comm, add_comm]

theorem document_read {fuel : Nat} {p : Progress} (legible : p.Legible) {d : Document}
    (read : document fuel p s = some d) :
    d.entries.Legible false false ∧ d.comments = p.comments + scan .outside s := by
  induction fuel generalizing p s with
  | zero => cases read
  | succ fuel ih =>
    simp only [document, Option.bind_eq_bind, Option.bind_eq_some_iff] at read
    obtain ⟨start, skipped, read⟩ := read
    obtain ⟨raw, whole, -, gap⟩ := trivia_gap skipped
    rw [between_eq whole] at read
    split at read
    · obtain ⟨entries, comments⟩ := Document.comments_of_sections legible.lines
        (fun s member => legible.sections s (List.mem_reverse.mp member)) read
      refine ⟨entries, ?_⟩
      rw [comments, List.map_reverse, List.sum_reverse, comments_kept, whole, List.append_nil]
      rfl
    · rename_i inside
      obtain ⟨⟨sec, rest⟩, one, more⟩ := Option.bind_eq_some_iff.mp read
      have visible : ¬ Halts ('[' :: inside) := fun halts => absurd (halts '[' rfl) (by decide)
      obtain ⟨section_, comments⟩ := header_read (gap visible) one
      have opened : Progress.Legible { p with sections := sec :: p.sections } := by
        refine ⟨legible.lines, fun s member => ?_⟩
        rcases List.mem_cons.mp member with rfl | other
        · exact section_
        · exact legible.sections s other
      obtain ⟨entries, all⟩ := ih opened more
      refine ⟨entries, ?_⟩
      rw [all, whole, comments, Progress.comments, List.map_cons, List.sum_cons, Progress.comments]
      simp only [add_assoc, add_left_comm, add_comm]
    · obtain ⟨⟨l, rest⟩, one, more⟩ := Option.bind_eq_some_iff.mp read
      have visible : ¬ Halts start := by
        simp only [line, Option.bind_eq_bind, Option.bind_eq_some_iff] at one
        obtain ⟨_, named, -⟩ := one
        exact keyPath_not_halts named
      obtain ⟨line_, comments⟩ := line_read (gap visible) one
      obtain ⟨added, sum⟩ := legible.addLine line_
      obtain ⟨entries, all⟩ := ih added more
      exact ⟨entries, by rw [all, sum, whole, comments, add_assoc]⟩

end LinterClient.Toml.Parser

namespace LinterClient.Toml

/-- A document that was read is legible and has all comments of the text. -/
theorem Document.parse?_comments {text : String} {d : Document} (read : Document.parse? text = some d) :
    d.entries.Legible false false ∧ d.comments = Toml.comments text := by
  obtain ⟨legible, comments⟩ := Parser.document_read ⟨by simp, by simp⟩ read
  refine ⟨legible, ?_⟩
  rw [comments, Toml.comments]
  refine (zero_add _).trans ?_
  -- a byte order mark is plain
  split
  · rename_i c rest shape
    rw [shape]
    split
    · rename_i mark
      have plain : Reads .outside [c] .outside 0 := Parser.reads_plain_one (by rw [mark]; decide)
      exact ((plain rest).trans (zero_add _)).symm
    · rfl
  · rename_i empty
    rw [empty]

end LinterClient.Toml
