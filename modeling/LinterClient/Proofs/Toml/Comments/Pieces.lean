import LinterClient.Proofs.Toml.Comments.Writing
import LinterClient.Toml.Printer

/-!
Pairs of a key and a value in the text of a document, on lines and between braces.

A pair has the comments of its key and its value, in whatever order the pairs come.
-/

namespace LinterClient.Toml

/-! ## Pieces of text -/

section Texts

variable {s t : String} {cs ds : Multiset String}

theorem Gap.text_append (first : Gap s.toList) {q : Place} (second : Reads .outside t.toList q cs) :
    Reads .outside (s ++ t).toList q (Toml.comments s + cs) := by
  rw [String.toList_append]
  exact first.reads.append second

theorem Gap.text_settles (first : Gap s.toList) (second : Settles .outside t.toList cs) :
    Settles .outside (s ++ t).toList (Toml.comments s + cs) := by
  rw [String.toList_append]
  exact first.reads.append_settles second

theorem settles_text_append (first : Settles .outside s.toList cs) (opens : Open t.toList)
    (second : Settles .outside t.toList ds) : Settles .outside (s ++ t).toList (cs + ds) := by
  rw [String.toList_append]
  exact first.append opens second

/-- What stands before something: what is said, or a usual gap. -/
theorem gap_getD {o : Option String} {usual : String} (gap : Gap (o.getD "").toList)
    (other : Gap usual.toList) (silent : comments usual = 0) :
    Gap (o.getD usual).toList ∧ comments (o.getD usual) = comments (o.getD "") := by
  cases o with
  | none => exact ⟨other, silent⟩
  | some s => exact ⟨gap, rfl⟩

theorem blank_getD {o : Option String} {usual : String} (blank : Blank (o.getD "").toList)
    (other : Blank usual.toList) : Blank (o.getD usual).toList := by
  cases o with
  | none => exact other
  | some s => exact blank

theorem Blank.comments_eq (blank : Blank s.toList) : comments s = 0 := blank.scan_eq

theorem blank_empty : Blank "".toList := blank_nil

theorem blank_space : Blank " ".toList := by simp [Blank]

end Texts

theorem pathInside_settles {path : List Key} (fits : ∀ k ∈ path, k.Fits) :
    Settles .outside (pathInside path).toList 0 := by
  have one (k : Key) (fit : k.Fits) : Settles .outside (k.inside.wrap "" "" k.text).toList 0 := by
    have after := fit.inside.after
    have whole := fit.inside.before.gap.text_settles
      (settles_text_append fit.text after.opens after.reads.settles)
    rw [fit.inside.before.comments_eq] at whole
    simpa [Trivia.wrap, String.append_assoc] using whole
  match path with
  | [] => exact (Reads.nil _).settles
  | [k] => exact one k (fits k List.mem_cons_self)
  | k :: next :: rest =>
    have more := pathInside_settles fun k member => fits k (List.mem_cons_of_mem _ member)
    have dot : Settles .outside ("." ++ pathInside (next :: rest)).toList 0 :=
      PlainText.before (by decide) more
    have opens : Open ("." ++ pathInside (next :: rest)).toList := by
      rw [String.toList_append]
      exact open_cons (c := '.') (by decide) (by simp)
    rw [pathInside, String.append_assoc]
    · exact Silent.append (one k (fits k List.mem_cons_self)) opens dot
    · simp

/-- A path with what stands around it. -/
theorem pathText_settles {path : List Key} {around : Trivia} {before after : String}
    (fits : ∀ k ∈ path, k.Fits) (front : Gap (around.before.getD "").toList)
    (back : Blank (around.after.getD "").toList) (blank : Blank before.toList) (blank' : Blank after.toList) :
    Settles .outside (pathText path around before after).toList around.comments := by
  obtain ⟨gap, same⟩ := gap_getD front blank.gap blank.scan_eq
  have closing := blank_getD back blank'
  have inner := settles_text_append (pathInside_settles fits) closing.opens closing.reads.settles
  have whole := gap.text_settles inner
  rw [same, ← String.append_assoc] at whole
  rw [Trivia.comments, back.comments_eq]
  exact whole

namespace Piece

def comments (p : Piece) : Multiset String :=
  (pathAround p.path).comments + Toml.comments (p.write " " "")

/-- A piece that can stand on a line of its own, or between braces. -/
structure Legible (braced : Bool) (p : Piece) : Prop where
  keys : ∀ k ∈ p.path, k.Fits
  front : Gap ((pathAround p.path).before.getD "").toList
  back : Blank ((pathAround p.path).after.getD "").toList
  line : Reads .outside ((p.write " " "") ++ "\n").toList .outside (Toml.comments (p.write " " ""))
  inside (after : String) : braced = true → Blank after.toList →
    Settles .outside (p.write " " after).toList (Toml.comments (p.write " " ""))

theorem Legible.weaken {p : Piece} (legible : p.Legible true) (braced : Bool) : p.Legible braced :=
  ⟨legible.keys, legible.front, legible.back, legible.line, fun after _ => legible.inside after rfl⟩

theorem Legible.line_reads {p : Piece} (legible : p.Legible false) :
    Reads .outside (pairText p "" " " "" ++ "\n").toList .outside p.comments := by
  have path := pathText_settles legible.keys legible.front legible.back blank_empty blank_space
  have value : Reads .outside ("=" ++ (p.write " " "" ++ "\n")).toList .outside
      (Toml.comments (p.write " " "")) := by
    rw [String.toList_append]
    exact (reads_plain (s := "=".toList) (by decide)).before legible.line
  have opens (rest : List Char) : Open (("=" ++ (p.write " " "" ++ "\n")).toList ++ rest) := by
    rw [String.toList_append, List.append_assoc]
    exact open_cons (c := '=') (by decide) (by simp)
  have whole := path.append_reads opens value
  rw [← String.toList_append] at whole
  rw [pairText, String.append_assoc, String.append_assoc]
  exact whole

theorem Legible.pair_settles {p : Piece} (legible : p.Legible true) {after : String}
    (blank : Blank after.toList) : Settles .outside (pairText p " " " " after).toList p.comments := by
  have path := pathText_settles legible.keys legible.front legible.back blank_space blank_space
  have value : Settles .outside ("=" ++ p.write " " after).toList (Toml.comments (p.write " " "")) := by
    rw [String.toList_append]
    exact (reads_plain (s := "=".toList) (by decide)).before_settles (legible.inside after rfl blank)
  have opens : Open ("=" ++ p.write " " after).toList := by
    rw [String.toList_append]
    exact open_cons (c := '=') (by decide) (by simp)
  rw [pairText, String.append_assoc]
  exact settles_text_append path opens value

theorem place_perm (p : Piece) (before : List Piece) : (place p before).Perm (p :: before) := by
  induction before with
  | nil => exact .refl _
  | cons q before ih =>
    rw [place]
    split
    · exact (ih.cons q).trans (.swap _ _ _)
    · exact .refl _

theorem inOrder_perm (pieces : List Piece) : (inOrder pieces).Perm pieces := by
  have fold (seen : List Piece) :
      (pieces.foldl (fun seen p => place p seen) seen).Perm (pieces.reverse ++ seen) := by
    induction pieces generalizing seen with
    | nil => exact .refl _
    | cons p rest ih =>
      rw [List.foldl_cons, List.reverse_cons, List.append_assoc]
      exact (ih _).trans ((place_perm p seen).append_left _)
  refine (List.reverse_perm _).trans ((fold []).trans ?_)
  rw [List.append_nil]
  exact List.reverse_perm _

end Piece

theorem pairsText_settles {pieces : List Piece} (legible : ∀ p ∈ pieces, p.Legible true) :
    Settles .outside (pairsText pieces).toList (pieces.map Piece.comments).sum := by
  match pieces with
  | [] => exact (Reads.nil _).settles
  | [p] =>
    have one := (legible p List.mem_cons_self).pair_settles blank_space
    rwa [pairsText, List.map_singleton, List.sum_singleton]
  | p :: q :: rest =>
    have first := (legible p List.mem_cons_self).pair_settles blank_empty
    have more := pairsText_settles fun p member => legible p (List.mem_cons_of_mem _ member)
    have comma : Settles .outside ("," ++ pairsText (q :: rest)).toList ((q :: rest).map Piece.comments).sum := by
      rw [String.toList_append]
      exact (reads_plain (s := ",".toList) (by decide)).before_settles more
    have opens : Open ("," ++ pairsText (q :: rest)).toList := by
      rw [String.toList_append]
      exact open_cons (c := ',') (by decide) (by simp)
    rw [pairsText, String.append_assoc, List.map_cons, List.sum_cons]
    · exact settles_text_append first opens comma
    · simp

theorem bracesText_reads {braces : Braces} {pieces : List Piece} (legible : ∀ p ∈ pieces, p.Legible true)
    (trailing : Gap braces.trailing.toList) :
    Reads .outside (bracesText braces pieces).toList .outside
      ((pieces.map Piece.comments).sum + Toml.comments braces.trailing) := by
  have comma : Gap (if braces.comma && !pieces.isEmpty then "," else "").toList ∧
      Toml.comments (if braces.comma && !pieces.isEmpty then "," else "") = 0 := by
    have plain : PlainText (if braces.comma && !pieces.isEmpty then "," else "") := by split <;> decide
    have silent := (reads_plain plain).scan_eq
    exact ⟨⟨by rw [silent]; exact reads_plain plain, open_plain plain⟩, silent⟩
  have brace : Reads .outside "\x7d".toList .outside 0 := reads_plain (by decide)
  have ending := comma.1.text_append (trailing.text_append brace)
  have opens (rest : List Char) : Open
      (((if braces.comma && !pieces.isEmpty then "," else "") ++ (braces.trailing ++ "\x7d")).toList ++ rest) := by
    rw [String.toList_append, String.toList_append, List.append_assoc, List.append_assoc]
    exact comma.1.opens.append (trailing.opens.append (open_cons (c := '\x7d') (by decide) (by simp)))
  have whole := (pairsText_settles legible).append_reads opens ending
  have start : Reads .outside "\x7b".toList .outside 0 := reads_plain (by decide)
  rw [comma.2, zero_add, add_zero] at whole
  rw [bracesText, String.append_assoc, String.append_assoc, String.append_assoc, String.toList_append]
  rw [← String.toList_append] at whole
  exact start.before whole

/-! ## What stands around a value -/

section Wrapping

variable {around : Trivia} {braced : Bool} {usual text : String} {cs : Multiset String}

/-- What stands around something at the end of a line. -/
theorem wrap_line (fits : around.Fits braced) (gap : Gap usual.toList) (silent : comments usual = 0)
    (settles : Settles .outside text.toList cs) :
    Reads .outside (around.wrap usual "" text ++ "\n").toList .outside (around.comments + cs) := by
  obtain ⟨front, same⟩ := gap_getD fits.before gap silent
  have opens (rest : List Char) : Open ((around.after.getD "" ++ "\n").toList ++ rest) := by
    rw [String.toList_append, List.append_assoc]
    exact fits.after.opens.append (open_cons (c := '\n') (by decide) (by simp))
  have ending : Reads .outside (around.after.getD "" ++ "\n").toList .outside
      (Toml.comments (around.after.getD "")) := by
    rw [String.toList_append]
    exact fits.after.reads
  have inner := settles.append_reads opens ending
  rw [← String.toList_append] at inner
  have whole := front.text_append inner
  rw [same, add_comm cs, ← add_assoc] at whole
  rwa [Trivia.comments, Trivia.wrap, String.append_assoc, String.append_assoc]

/-- The same between braces, where what follows is over. -/
theorem wrap_inside (fits : around.Fits true) (gap : Gap usual.toList) (silent : comments usual = 0)
    (settles : Settles .outside text.toList cs) {after : String} (blank : Blank after.toList) :
    Settles .outside (around.wrap usual after text).toList (around.comments + cs) := by
  obtain ⟨front, same⟩ := gap_getD fits.before gap silent
  obtain ⟨back, same'⟩ := gap_getD (fits.inside rfl) blank.gap blank.scan_eq
  have whole := front.text_settles (settles_text_append settles back.opens back.reads.settles)
  have behind : scan .outside (around.after.getD after).toList = Toml.comments (around.after.getD "") := same'
  rw [same, behind, add_comm cs, ← add_assoc] at whole
  rwa [Trivia.comments, Trivia.wrap, String.append_assoc]

end Wrapping

theorem scan_break (p : Place) (s : List Char) : scan p (s ++ ['\n']) = scan p s := by
  induction s generalizing p with
  | nil =>
    have silent : (p.next '\n').ended = 0 := by
      cases p <;> simp only [Place.next, Place.start, Place.inLine] <;> split_ifs <;> first | rfl | contradiction
    rw [List.nil_append, scan_cons (by decide), if_pos rfl, scan, scan, silent, add_zero]
  | cons c s ih =>
    rw [List.cons_append, scan, scan, ih, ih]

theorem comments_break (s : String) : comments (s ++ "\n") = comments s := by
  rw [comments, String.toList_append]
  exact scan_break _ _

theorem pathAround_append (path : List Key) (k : Key) : pathAround (path ++ [k]) = k.around := by
  simp [pathAround]

theorem fits_append {path : List Key} {k : Key} (keys : ∀ k ∈ path, k.Fits) (fits : k.Fits) :
    ∀ k' ∈ path ++ [k], k'.Fits := by
  intro k' member
  rcases List.mem_append.mp member with above | last
  · exact keys k' above
  · rw [List.mem_singleton.mp last]
    exact fits

section Pairs

variable {path : List Key} {k : Key} {around : Trivia} {braced : Bool} {text : String} {cs : Multiset String}

theorem comments_wrap (fits : around.Fits braced) (settles : Settles .outside text.toList cs) :
    comments (around.wrap " " "" text) = around.comments + cs := by
  rw [← comments_break]
  exact (wrap_line fits blank_space.gap blank_space.scan_eq settles).scan_eq

/-- An entry that is printed as a pair. -/
theorem legible_pair (keys : ∀ k ∈ path, k.Fits) (fits : k.Fits) (leads : k.Leads)
    (beside : around.Fits braced) (settles : Settles .outside text.toList cs) :
    Piece.Legible braced ⟨path ++ [k], fun before after => around.wrap before after text⟩ where
  keys := fits_append keys fits
  front := by simpa only [pathAround_append] using leads.before
  back := by simpa only [pathAround_append] using leads.after
  line := by
    simpa only [comments_wrap beside settles]
      using wrap_line beside blank_space.gap blank_space.scan_eq settles
  inside after within blank := by
    subst within
    simpa only [comments_wrap beside settles]
      using wrap_inside beside blank_space.gap blank_space.scan_eq settles blank

theorem comments_pair (path : List Key) (k : Key) (beside : around.Fits braced)
    (settles : Settles .outside text.toList cs) :
    Piece.comments ⟨path ++ [k], fun before after => around.wrap before after text⟩ =
      k.around.comments + (around.comments + cs) := by
  rw [Piece.comments, pathAround_append, comments_wrap beside settles]

end Pairs

end LinterClient.Toml
