import LinterClient.Proofs.Glob.Reordering
import LinterClient.Proofs.Glob.Uniform
import LinterClient.Proofs.WorkingDirectory.Patterns

/-!
The row of a pattern in its folder.

The folder's path stands in front as characters that mean themselves, dots and slashes at the start of the pattern are
dropped, and a slash closes the whole. None of that concerns the alternatives: the pattern may be reordered
before or after.
-/

namespace LinterClient.Glob

/-! ## The slash at the end -/

/-- A text with a slash at its end. -/
def closedText (s : List Char) : List Char :=
  if s.getLast? = some '/' then s else s ++ ['/']

theorem closedText_append {s t : List Char} (ends : t = [] → s.getLast? ≠ some '/') :
    closedText (s ++ t) = s ++ closedText t := by
  by_cases empty : t = []
  · subst empty
    simp [closedText, ends rfl]
  · rw [closedText, closedText, List.getLast?_append_of_ne_nil _ empty]
    split
    · rfl
    · rw [List.append_assoc]

theorem closedText_head? {s : List Char} (filled : s ≠ []) : (closedText s).head? = s.head? := by
  rw [closedText]
  split
  · rfl
  · rw [List.head?_append_of_ne_nil _ filled]

/-- A piece at the end with a slash behind it: stars with a slash are segments. -/
def Piece.close : Piece → Run
  | .anything => .piece .segments .nil
  | p => if p.text.getLast? = some '/' then .piece p .nil else .piece p (.piece (.char '/') .nil)

def Run.close : Run → Run
  | .nil => .piece (.char '/') .nil
  | .piece first .nil => first.close
  | .piece first rest => .piece first rest.close
  | .group alternatives rest => .group alternatives rest.close

theorem Piece.text_close (p : Piece) : p.close.text = closedText p.text := by
  cases p with
  | anything => rfl
  | _ =>
    simp only [Piece.close, closedText]
    split <;> simp [Run.text, Piece.text]

theorem Piece.fits_close {inGroup : Bool} {p : Piece} (fits : p.Fits inGroup []) : p.close.Fits inGroup := by
  have slash : Piece.Fits inGroup [] (.char '/') := by simp [Piece.Fits]
  cases p with
  | anything => exact ⟨trivial, trivial⟩
  | star => exact ⟨by simp [Piece.Fits, Run.text, Piece.text], slash, trivial⟩
  | _ =>
    simp only [Piece.close]
    split
    · exact ⟨fits, trivial⟩
    · exact ⟨fits, slash, trivial⟩

theorem Run.close_piece {rest : Run} (filled : rest ≠ .nil) (p : Piece) :
    (Run.piece p rest).close = .piece p rest.close := by
  cases rest with
  | nil => exact absurd rfl filled
  | _ => rfl

theorem Run.text_close (run : Run) : run.close.text = closedText run.text := by
  cases run with
  | nil => rfl
  | piece p rest =>
    by_cases last : rest = .nil
    · subst last
      rw [Run.close, p.text_close, Run.text, Run.text, List.append_nil]
    · have filled : rest.text = [] → p.text.getLast? ≠ some '/' := fun empty => absurd (Run.text_eq_nil empty) last
      rw [Run.close_piece last, Run.text, Run.text, rest.text_close, closedText_append filled]
  | group choice rest =>
    have brace : rest.text = [] → ('\x7b' :: (choice.text ++ ['\x7d'])).getLast? ≠ some '/' := by
      rw [← List.cons_append, List.getLast?_concat]
      simp
    have whole := closedText_append brace
    simp only [List.cons_append, List.append_assoc, List.nil_append] at whole
    rw [Run.close, Run.text, Run.text, rest.text_close, whole]

theorem Run.fits_close {run : Run} (fits : run.Fits false) : run.close.Fits false := by
  cases run with
  | nil => exact ⟨by simp [Piece.Fits], trivial⟩
  | piece p rest =>
    by_cases last : rest = .nil
    · subst last
      exact Piece.fits_close fits.1
    · have filled : rest.text ≠ [] := fun empty => last (Run.text_eq_nil empty)
      rw [Run.close_piece last]
      refine ⟨(Piece.fits_congr ?_).mpr fits.1, Run.fits_close fits.2⟩
      rw [rest.text_close, closedText_head? filled]
  | group choice rest => exact ⟨fits.1, Run.fits_close fits.2⟩

/-- Whether a row has no groups. -/
def Run.isPlain : Run → Bool
  | .nil => true
  | .piece _ rest => rest.isPlain
  | .group _ _ => false

theorem Run.Reordered.eq_of_plain {run whole : Run} (reordered : run.Reordered whole) (plain : run.isPlain = true) :
    whole = run := by
  cases reordered with
  | nil => rfl
  | piece p later => rw [later.eq_of_plain plain]
  | group => cases plain

theorem Piece.plain_close (p : Piece) : p.close.isPlain = true := by
  cases p with
  | anything => rfl
  | _ =>
    simp only [Piece.close]
    split <;> rfl

theorem plain_literal (s : List Char) : (literal s).isPlain = true := by
  induction s with
  | nil => rfl
  | cons c s ih => exact ih

theorem Run.Reordered.nil_iff {run run' : Run} (reordered : run.Reordered run') : run = .nil ↔ run' = .nil := by
  cases reordered <;> simp

theorem Run.Reordered.close {run run' : Run} (reordered : run.Reordered run') : run.close.Reordered run'.close := by
  cases reordered with
  | nil => exact Run.Reordered.refl _
  | @piece p rest rest' later =>
    by_cases last : rest = .nil
    · cases later.nil_iff.mp last
      subst last
      exact Run.Reordered.refl _
    · rw [Run.close_piece last, Run.close_piece (mt later.nil_iff.mpr last)]
      exact .piece p later.close
  | group aligned order later => exact .group aligned order later.close

/-- A closed row is reordered by reordering the row. -/
theorem Run.Reordered.of_close {run whole : Run} (reordered : run.close.Reordered whole) :
    ∃ run', run.Reordered run' ∧ whole = run'.close := by
  cases run with
  | nil => exact ⟨.nil, .nil, reordered.eq_of_plain rfl⟩
  | piece p rest =>
    by_cases last : rest = .nil
    · subst last
      exact ⟨.piece p .nil, Run.Reordered.refl _, reordered.eq_of_plain p.plain_close⟩
    · rw [Run.close_piece last] at reordered
      obtain ⟨_, rfl, later⟩ := reordered.of_piece
      obtain ⟨rest', inner, rfl⟩ := later.of_close
      exact ⟨.piece p rest', .piece p inner, (Run.close_piece (mt inner.nil_iff.mpr last) p).symm⟩
  | group choice rest =>
    obtain ⟨choice', _, l, rfl, aligned, order, later⟩ := reordered.of_group
    obtain ⟨rest', inner, rfl⟩ := later.of_close
    exact ⟨.group choice' rest', .group aligned order inner, rfl⟩

/-! ## Dots and slashes at the start -/

/-- A row without the dots and slashes at its start. -/
def Run.dropDots : Run → Run
  | .piece (.char '.') (.piece (.char '/') rest) => rest.dropDots
  | run => run

/-- A row whose text starts with a character that means itself starts with that character. -/
theorem Run.of_head? {run : Run} {c : Char} (literal : IsLiteral c) (head : run.text.head? = some c) :
    ∃ rest, run = .piece (.char c) rest := by
  obtain ⟨star, single, bracket, group⟩ := literal
  cases run with
  | nil => cases head
  | piece p rest =>
    cases p with
    | char d =>
      cases head
      exact ⟨rest, rfl⟩
    | segments | anything | star => exact absurd (Option.some.inj head).symm star
    | single => exact absurd (Option.some.inj head).symm single
    | charClass => exact absurd (Option.some.inj head).symm bracket
  | group choice rest => exact absurd (Option.some.inj head).symm group

/-- Rows follow each other as long as they start with a dot and a slash. -/
@[elab_as_elim]
theorem Run.byDots {motive : Run → Prop}
    (dots : ∀ rest, motive rest → motive (.piece (.char '.') (.piece (.char '/') rest)))
    (other : ∀ run, run.dropDots = run → (∀ rest, run ≠ .piece (.char '.') (.piece (.char '/') rest)) → motive run)
    (run : Run) : motive run := by
  fun_induction Run.dropDots run with
  | case1 rest ih => exact dots rest ih
  | case2 run none =>
    apply other run _ none
    rw [Run.dropDots]
    exact none

theorem Run.text_dropDots (run : Run) : run.dropDots.text = WorkingDirectory.dropDotSlashes run.text := by
  induction run using Run.byDots with
  | dots rest ih => exact ih
  | other run same other =>
    rw [same, WorkingDirectory.dropDotSlashes]
    intro rest start
    have first : run.text.head? = some '.' := by rw [start]; rfl
    obtain ⟨behind, rfl⟩ := Run.of_head? (by decide) first
    have behindText : behind.text = '/' :: rest := (List.cons.inj start).2
    have second : behind.text.head? = some '/' := by rw [behindText]; rfl
    obtain ⟨last, rfl⟩ := Run.of_head? (by decide) second
    exact other last rfl

theorem Run.fits_dropDots {run : Run} (fits : run.Fits false) : run.dropDots.Fits false := by
  induction run using Run.byDots with
  | dots rest ih => exact ih fits.2.2
  | other run same => exact same.symm ▸ fits

/-- A row that starts without a dot and a slash does so in every order. -/
theorem Run.Reordered.dropDots_other {run whole : Run} (reordered : run.Reordered whole)
    (other : ∀ rest, run ≠ .piece (.char '.') (.piece (.char '/') rest)) : whole.dropDots = whole := by
  cases whole using Run.byDots with
  | dots rest =>
    cases reordered with
    | piece _ later =>
      cases later with
      | @piece _ last => exact absurd rfl (other last)
  | other whole same => exact same

theorem Run.Reordered.dropDots {run run' : Run} (reordered : run.Reordered run') :
    run.dropDots.Reordered run'.dropDots := by
  induction run using Run.byDots generalizing run' with
  | dots rest ih =>
    obtain ⟨_, rfl, behind⟩ := reordered.of_piece
    obtain ⟨rest', rfl, later⟩ := behind.of_piece
    have kept := ih later
    exact kept
  | other run same other =>
    rw [same, reordered.dropDots_other other]
    exact reordered

theorem Run.Reordered.of_dropDots {run whole : Run} (reordered : run.dropDots.Reordered whole) :
    ∃ run', run.Reordered run' ∧ whole = run'.dropDots := by
  induction run using Run.byDots generalizing whole with
  | dots rest ih =>
    obtain ⟨rest', later, rfl⟩ := ih reordered
    exact ⟨.piece (.char '.') (.piece (.char '/') rest'), .piece _ (.piece _ later), rfl⟩
  | other run same other =>
    rw [same] at reordered
    exact ⟨whole, reordered, (reordered.dropDots_other other).symm⟩

/-! ## Uniform rows -/

theorem Run.Uniform.close {run : Run} (uniform : run.Uniform) : run.close.Uniform := by
  cases run with
  | nil => trivial
  | piece p rest =>
    by_cases last : rest = .nil
    · subst last
      cases p with
      | anything => trivial
      | _ =>
        simp only [Run.close, Piece.close]
        split <;> trivial
    · have later : rest.Uniform := uniform
      rw [Run.close_piece last]
      exact later.close
  | group choice rest => exact ⟨uniform.1, uniform.2.close⟩

theorem Run.Uniform.dropDots {run : Run} (uniform : run.Uniform) : run.dropDots.Uniform := by
  induction run using Run.byDots with
  | dots rest ih => exact ih uniform
  | other run same => exact same.symm ▸ uniform

theorem Run.uniform_of_plain {run : Run} (plain : run.isPlain = true) : run.Uniform := by
  induction run using Run.byParts with
  | nil => trivial
  | piece p rest ih => exact ih plain
  | group => cases plain

/-! ## Rows in front of which something stands -/

theorem Run.Reordered.of_behind {front run whole : Run} (plain : front.isPlain = true)
    (reordered : (front.append run.dropDots).close.Reordered whole) :
    ∃ run', run.Reordered run' ∧ whole = (front.append run'.dropDots).close := by
  obtain ⟨_, closed, rfl⟩ := reordered.of_close
  obtain ⟨_, _, before, behind, rfl⟩ := closed.split
  obtain ⟨run', inner, rfl⟩ := behind.of_dropDots
  rw [before.eq_of_plain plain]
  exact ⟨run', inner, rfl⟩

theorem Run.Uniform.behind {front run : Run} (plain : front.isPlain = true) (uniform : run.Uniform) :
    (front.append run.dropDots).close.Uniform :=
  ((Run.uniform_of_plain plain).append uniform.dropDots).close

theorem Reads.of_literal {front back : String} {run : Run} (literals : ∀ c ∈ front.toList, IsLiteral c)
    (reads : Reads (front ++ back) run) : ∃ run', Reads back run' := by
  have read := reads.tokens_eq
  rw [String.toList_append, tokens_literal literals] at read
  obtain ⟨ts, later, -⟩ := Option.map_eq_some_iff.mp read
  obtain ⟨run', reads', -⟩ := tokens_eq_some_iff.mp later
  exact ⟨run', reads'⟩

theorem Reads.literal {front back : String} {run : Run} (literals : ∀ c ∈ front.toList, IsLiteral c)
    (reads : Reads back run) : Reads (front ++ back) ((literal front.toList).append run) := by
  refine ⟨literal_append_fits literals reads.1, ?_⟩
  rw [Run.text_append, literal_text, reads.2, String.toList_append]

/-- What stands behind a row may be replaced by something that starts alike. -/
theorem Run.Fits.replace {inGroup : Bool} {front back back' : Run} (fits : (front.append back).Fits inGroup)
    (start : back'.text.head? = back.text.head?) (fits' : back'.Fits inGroup) :
    (front.append back').Fits inGroup := by
  cases front with
  | nil => exact fits'
  | piece p rest =>
    refine ⟨(Piece.fits_congr ?_).mpr fits.1, Run.Fits.replace fits.2 start fits'⟩
    rw [Run.text_append, Run.text_append, List.head?_append, List.head?_append, start]
  | group choice rest => exact ⟨fits.1, Run.Fits.replace fits.2 start fits'⟩

end LinterClient.Glob

namespace LinterClient.WorkingDirectory

open Glob (Reads Run closedText IsLiteral)

theorem toList_withSlash (s : String) : (withSlash s).toList = closedText s.toList := by
  rw [withSlash, closedText]
  split
  · rename_i ends
    rw [if_pos (endsWith_slash_iff.mp ends)]
  · rename_i ends
    rw [if_neg (mt endsWith_slash_iff.mpr ends), String.toList_append]
    rfl

theorem reads_withSlash {glob : String} {run : Run} (reads : Reads glob run) :
    Reads (withSlash glob) run.close :=
  ⟨Run.fits_close reads.1, by rw [Run.text_close, reads.2, toList_withSlash]⟩

/-- What is read with a slash at its end is read without it. -/
theorem reads_of_withSlash {glob : String} {run : Run} (reads : Reads (withSlash glob) run) :
    ∃ run', Reads glob run' := by
  by_cases ends : glob.endsWith "/" = true
  · rw [WorkingDirectory.withSlash, if_pos ends] at reads
    exact ⟨run, reads⟩
  · rw [WorkingDirectory.withSlash, if_neg ends] at reads
    obtain ⟨fits, text⟩ := reads
    have whole : run.text = glob.toList ++ ['/'] := by rw [text, String.toList_append]; rfl
    obtain ⟨front, p, rfl, rfl | rfl⟩ := run.ends_slash (by rw [whole, List.getLast?_concat])
    · rw [Run.text_append] at whole
      exact ⟨front, Run.Fits.front fits, List.append_cancel_right whole⟩
    · -- the slash belonged to segments, and the stars before it match anything without it
      have stars : (front.text ++ ['*', '*']) ++ ['/'] = glob.toList ++ ['/'] := by
        rw [← whole, Run.text_append, List.append_assoc]
        rfl
      refine ⟨front.append (.piece .anything .nil), fits.replace rfl ⟨by simp [Glob.Piece.Fits, Run.text], trivial⟩, ?_⟩
      rw [Run.text_append, ← List.append_cancel_right stars]
      rfl

/-- What is read without dots and slashes at its start is read with them. -/
theorem reads_of_dropDotSlashes {s : List Char} {run : Run} (reads : Reads (String.ofList (dropDotSlashes s)) run) :
    ∃ run', Reads (String.ofList s) run' := by
  fun_induction dropDotSlashes s with
  | case1 rest ih =>
    obtain ⟨run', later⟩ := ih reads
    have literals : ∀ c ∈ "./".toList, IsLiteral c := by simp [IsLiteral]
    have whole := Reads.literal literals later
    have same : "./" ++ String.ofList rest = String.ofList ('.' :: '/' :: rest) := by simp [← String.toList_inj]
    exact ⟨_, same ▸ whole⟩
  | case2 => exact ⟨run, reads⟩

/-! ## The whole pattern -/

/-- The row of a pattern in its folder. -/
def placed (root : Option FilePath) (run : Run) : Run :=
  match root with
  | some root =>
    if run.text.head? = some '/' then run.close
    else ((Glob.literal (front root).toList).append run.dropDots).close
  | none => run.close

/-- Whether the characters of a folder's path mean themselves, as far as the path stands before a pattern. -/
def IsPlainFor (root : Option FilePath) (pattern : String) : Prop :=
  ∀ folder ∈ root, pattern.toList.head? ≠ some '/' → ∀ c ∈ folder.text.toList, IsLiteral c

theorem startsWith_slash_iff {s : String} : s.startsWith "/" = true ↔ s.toList.head? = some '/' := by
  rw [String.startsWith_string_iff, List.head?_eq_some_iff]
  exact exists_congr fun rest => eq_comm

theorem fullPattern_absolute {pattern : String} (start : pattern.toList.head? = some '/') (folder : FilePath) :
    fullPattern pattern (some folder) = withSlash pattern := by
  simp only [fullPattern, startsWith_slash_iff.mpr start, if_true]

theorem fullPattern_relative {pattern : String} (start : pattern.toList.head? ≠ some '/') (folder : FilePath) :
    fullPattern pattern (some folder) =
      withSlash (front folder ++ String.ofList (dropDotSlashes pattern.toList)) := by
  have relative : pattern.startsWith "/" = false := by
    rw [Bool.eq_false_iff]
    exact mt startsWith_slash_iff.mp start
  simp only [fullPattern, relative, Bool.false_eq_true, if_false, front]

variable {root : Option FilePath} {pattern : String} {run run' whole : Run}

theorem placed_absolute (start : run.text.head? = some '/') (folder : FilePath) :
    placed (some folder) run = run.close := if_pos start

theorem placed_relative (start : run.text.head? ≠ some '/') (folder : FilePath) :
    placed (some folder) run = ((Glob.literal (front folder).toList).append run.dropDots).close := if_neg start

theorem reads_placed (plain : IsPlainFor root pattern) (reads : Reads pattern run) :
    Reads (fullPattern pattern root) (placed root run) := by
  cases root with
  | none => exact reads_withSlash reads
  | some folder =>
    by_cases start : pattern.toList.head? = some '/'
    · rw [fullPattern_absolute start, placed_absolute (reads.2 ▸ start)]
      exact reads_withSlash reads
    · have dropped : Reads (String.ofList (dropDotSlashes pattern.toList)) run.dropDots :=
        ⟨Run.fits_dropDots reads.1, by rw [Run.text_dropDots, reads.2, String.toList_ofList]⟩
      rw [fullPattern_relative start, placed_relative (reads.2 ▸ start)]
      apply reads_withSlash
      exact Reads.literal (isLiteral_front_iff.mpr (plain folder rfl start)) dropped

example : (placed (some (.ofString "/ws")) (.piece (.char '.') (.piece (.char '/') (.piece .star .nil)))).text =
    (fullPattern "./*" (some (.ofString "/ws"))).toList := by
  decide +kernel

theorem reads_of_fullPattern (plain : IsPlainFor root pattern) (reads : Reads (fullPattern pattern root) run) :
    ∃ run', Reads pattern run' := by
  cases root with
  | none => exact reads_of_withSlash reads
  | some folder =>
    by_cases start : pattern.toList.head? = some '/'
    · rw [fullPattern_absolute start] at reads
      exact reads_of_withSlash reads
    · rw [fullPattern_relative start] at reads
      obtain ⟨_, opened⟩ := reads_of_withSlash reads
      obtain ⟨_, dropped⟩ := opened.of_literal (isLiteral_front_iff.mpr (plain folder rfl start))
      obtain ⟨run', original⟩ := reads_of_dropDotSlashes dropped
      rw [String.ofList_toList] at original
      exact ⟨run', original⟩

theorem reordered_placed (reordered : run.Reordered run') : (placed root run).Reordered (placed root run') := by
  cases root with
  | none => exact reordered.close
  | some folder =>
    have same := reordered.head?_text
    by_cases start : run.text.head? = some '/'
    · rw [placed_absolute start, placed_absolute (same.trans start)]
      exact reordered.close
    · rw [placed_relative start, placed_relative (same ▸ start)]
      exact ((Run.Reordered.refl _).append reordered.dropDots).close

theorem reordered_of_placed (reordered : (placed root run).Reordered whole) :
    ∃ run', run.Reordered run' ∧ whole = placed root run' := by
  cases root with
  | none => exact reordered.of_close
  | some folder =>
    by_cases start : run.text.head? = some '/'
    · rw [placed_absolute start] at reordered
      obtain ⟨run', inner, rfl⟩ := reordered.of_close
      exact ⟨run', inner, (placed_absolute (inner.head?_text.trans start) folder).symm⟩
    · rw [placed_relative start] at reordered
      have plain := Glob.plain_literal (front folder).toList
      obtain ⟨run', inner, same⟩ := Run.Reordered.of_behind plain reordered
      have start' : run'.text.head? ≠ some '/' := by
        rw [inner.head?_text]
        exact start
      exact ⟨run', inner, same.trans (placed_relative start' folder).symm⟩

theorem uniform_placed (uniform : run.Uniform) : (placed root run).Uniform := by
  cases root with
  | none => exact uniform.close
  | some folder =>
    by_cases start : run.text.head? = some '/'
    · rw [placed_absolute start]
      exact uniform.close
    · have plain := Glob.plain_literal (front folder).toList
      rw [placed_relative start]
      generalize Glob.literal (front folder).toList = opening at plain ⊢
      exact Run.Uniform.behind plain uniform

end LinterClient.WorkingDirectory
