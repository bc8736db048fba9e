import LinterClient.Proofs.FilePath
import LinterClient.Proofs.Text.Lossy
import LinterClient.Proofs.WorkingDirectory

/-!
Directories and the files in them.

A directory entry is resolved by its text alone, against the folder if it is relative. A file lies in it if
the names on the way to the directory are those that the file's path starts with, and the path has more. An
entry that starts nowhere and leads nowhere comes out as the root.
-/

namespace LinterClient.WorkingDirectory

open FilePath (slash dot splitBytes step? steps foldStep Component PlainName ofComponents)

/-- The pieces of an entry's path, behind those of the folder unless the entry is absolute. -/
def pieces (directory : String) (folder : Option FilePath) : List (List UInt8) :=
  let entry := FilePath.ofString directory
  match folder with
  | some root =>
    if entry.isAbsolute then splitBytes slash entry.bytes
    else splitBytes slash root.bytes ++ splitBytes slash entry.bytes
  | none => splitBytes slash entry.bytes

/-- Whether an entry leads from the root, by itself or by the folder that it is in. -/
def StartsAtRoot (directory : String) (folder : Option FilePath) : Prop :=
  (FilePath.ofString directory).isAbsolute = true ∨ ∃ root ∈ folder, root.isAbsolute = true
deriving Decidable

/-- What one piece makes of the names from the root. -/
def descend (names : List (List UInt8)) (piece : List UInt8) : List (List UInt8) :=
  if piece = [] ∨ piece = [dot] then names
  else if piece = [dot, dot] then names.dropLast
  else names ++ [piece]

/-- How many names below its start one piece leads, unless it leads above the start. -/
def sink? (depth : Nat) (piece : List UInt8) : Option Nat :=
  if piece = [] ∨ piece = [dot] then some depth
  else if piece = [dot, dot] then if depth = 0 then none else some (depth - 1)
  else some (depth + 1)

/-- The names of an entry's directory, as text. -/
def directoryNames (directory : String) (folder : Option FilePath) : List (List Char) :=
  ((pieces directory folder).foldl descend []).map fun name => (Utf8.lossy name).toList

/-- Whether an entry goes down and up again to where it started. -/
def LeadsNowhere (directory : String) (folder : Option FilePath) : Prop :=
  (pieces directory folder).foldlM sink? 0 = some 0
deriving Decidable

/-! ## The path of an entry -/

/-- The path of an entry, below the folder unless it is absolute. -/
def joined (directory : String) (folder : Option FilePath) : FilePath :=
  match folder with
  | some root => if (FilePath.ofString directory).isAbsolute then .ofString directory
    else root.join (.ofString directory)
  | none => .ofString directory

theorem matchDirectory?_eq (directory file : String) (folder : Option FilePath) :
    matchDirectory? directory (some file) folder =
      if (withSlash (joined directory folder).normalize.text).toList.isPrefixOf file.toList then
        some (withSlash (joined directory folder).normalize.text) else none := by
  rw [matchDirectory?, Option.bind_some]
  rfl

theorem isAbsolute_join {directory path : FilePath} (relative : path.isAbsolute = false) :
    (directory.join path).isAbsolute = directory.isAbsolute := by
  rw [FilePath.join, relative, if_neg Bool.false_ne_true]
  by_cases empty : directory.bytes = []
  · rw [if_pos (Or.inl empty), empty]
    simpa [FilePath.isAbsolute, empty] using relative
  · obtain ⟨b, rest, start⟩ := List.exists_cons_of_ne_nil empty
    split <;> simp [FilePath.isAbsolute, start]

theorem steps_joined (directory : String) (folder : Option FilePath) :
    steps (joined directory folder) = (pieces directory folder).filterMap step? := by
  cases folder with
  | none => rfl
  | some root =>
    by_cases absolute : (FilePath.ofString directory).isAbsolute = true
    · simp only [joined, pieces, absolute, if_true]
      rfl
    · have relative := Bool.eq_false_iff.mpr absolute
      simp only [joined, pieces, relative, Bool.false_eq_true, if_false, List.filterMap_append]
      exact FilePath.steps_join relative

theorem isAbsolute_joined (directory : String) (folder : Option FilePath) :
    (joined directory folder).isAbsolute = true ↔ StartsAtRoot directory folder := by
  cases folder with
  | none => simp [joined, StartsAtRoot]
  | some root =>
    by_cases absolute : (FilePath.ofString directory).isAbsolute = true
    · simp [joined, StartsAtRoot, absolute]
    · have relative := Bool.eq_false_iff.mpr absolute
      simp [joined, StartsAtRoot, relative, isAbsolute_join relative]

/-! ## Folding -/

theorem normalize_eq (p : FilePath) :
    p.normalize = ofComponents p.isAbsolute
      (((steps p).foldl (foldStep p.isAbsolute) []).reverse.map Component.bytes) := by
  rcases FilePath.components_eq p with whole | whole
  · rw [FilePath.normalize, whole]
  · rw [FilePath.normalize, whole]
    rfl

theorem step?_cases (piece : List UInt8) :
    (piece = [] ∨ piece = [dot]) ∧ step? piece = none ∨
      piece = [dot, dot] ∧ step? piece = some .parent ∨
      ¬ (piece = [] ∨ piece = [dot]) ∧ piece ≠ [dot, dot] ∧ step? piece = some (.normal piece) := by
  by_cases still : piece = [] ∨ piece = [dot]
  · exact Or.inl ⟨still, by simp [step?, still]⟩
  by_cases up : piece = [dot, dot]
  · exact Or.inr (Or.inl ⟨up, by simp [step?, up]⟩)
  · exact Or.inr (Or.inr ⟨still, up, by simp [step?, still, up]⟩)

theorem mem_foldStep {absolute : Bool} {seen : List Component} {c step : Component}
    (member : c ∈ foldStep absolute seen step) : c ∈ seen ∨ c = step := by
  cases step with
  | current => exact Or.inl member
  | normal name => exact (List.mem_cons.mp member).symm
  | parent =>
    simp only [foldStep] at member
    split at member
    · exact Or.inl (List.mem_cons_of_mem _ member)
    · split at member
      · exact Or.inl member
      · exact (List.mem_cons.mp member).symm

theorem mem_foldl_foldStep {absolute : Bool} {path seen : List Component} {c : Component}
    (member : c ∈ path.foldl (foldStep absolute) seen) : c ∈ seen ∨ c ∈ path := by
  induction path generalizing seen with
  | nil => exact Or.inl member
  | cons step path ih =>
    rcases ih member with before | later
    · rcases mem_foldStep before with before | rfl
      · exact Or.inl before
      · exact Or.inr List.mem_cons_self
    · exact Or.inr (List.mem_cons_of_mem _ later)

theorem foldl_foldStep_plain (p : FilePath) :
    ∀ name ∈ ((steps p).foldl (foldStep false) []).reverse.map Component.bytes, name ≠ [] ∧ slash ∉ name := by
  intro name member
  obtain ⟨c, inside, rfl⟩ := List.mem_map.mp member
  rcases mem_foldl_foldStep (List.mem_reverse.mp inside) with none | inside
  · cases none
  · cases c with
    | current => exact absurd inside (FilePath.steps_current p)
    | parent => decide
    | normal name =>
      have plain := FilePath.steps_normal inside
      exact ⟨plain.ne_nil, plain.noSlash⟩

/-- From the root, folding leaves the names that the pieces lead along. -/
theorem foldl_foldStep_root (ps names : List (List UInt8)) :
    ((ps.filterMap step?).foldl (foldStep true) (names.map .normal)).reverse.map Component.bytes =
      ps.foldl descend names.reverse := by
  induction ps generalizing names with
  | nil => simp [Function.comp_def, Component.bytes]
  | cons piece ps ih =>
    rcases step?_cases piece with ⟨still, step⟩ | ⟨rfl, step⟩ | ⟨moves, down, step⟩
    · rw [List.filterMap_cons_none step, ih, List.foldl_cons, descend, if_pos still]
    · rw [List.filterMap_cons_some step, List.foldl_cons, List.foldl_cons]
      cases names with
      | nil => exact ih []
      | cons name names =>
        have up := ih names
        simpa [descend, foldStep] using up
    · rw [List.filterMap_cons_some step, List.foldl_cons, List.foldl_cons, descend, if_neg moves, if_neg down]
      have deeper := ih (piece :: names)
      rwa [List.reverse_cons] at deeper

theorem parent_stays {seen : List Component} (above : .parent ∈ seen) (path : List Component) :
    .parent ∈ path.foldl (foldStep false) seen := by
  induction path generalizing seen with
  | nil => exact above
  | cons c path ih =>
    apply ih
    cases c with
    | current => exact above
    | normal name => exact List.mem_cons_of_mem _ above
    | parent =>
      simp only [foldStep]
      split
      · simpa using above
      · simp

/-- From anywhere else, folding leaves nothing just of pieces that lead back to the start and never above. -/
theorem foldl_foldStep_relative (ps names : List (List UInt8)) :
    (ps.filterMap step?).foldl (foldStep false) (names.map .normal) = [] ↔
      ps.foldlM sink? names.length = some 0 := by
  induction ps generalizing names with
  | nil => cases names <;> simp
  | cons piece ps ih =>
    rcases step?_cases piece with ⟨still, step⟩ | ⟨rfl, step⟩ | ⟨moves, down, step⟩
    · rw [List.filterMap_cons_none step, ih, List.foldlM_cons, sink?, if_pos still]
      rfl
    · rw [List.filterMap_cons_some step, List.foldl_cons, List.foldlM_cons]
      cases names with
      | nil =>
        have above : .parent ∈ (ps.filterMap step?).foldl (foldStep false) [.parent] :=
          parent_stays (by simp) _
        have left : (ps.filterMap step?).foldl (foldStep false) [.parent] ≠ [] := by
          intro empty
          rw [empty] at above
          cases above
        exact iff_of_false left (by simp [sink?])
      | cons name names =>
        have up := ih names
        simpa [sink?, foldStep] using up
    · rw [List.filterMap_cons_some step, List.foldl_cons, List.foldlM_cons, sink?, if_neg moves, if_neg down]
      exact ih (piece :: names)

/-! ## The text of a directory -/

theorem chars_intercalate (names : List (List UInt8)) :
    Utf8.chars ([slash].intercalate names) = ['/'].intercalate (names.map Utf8.chars) := by
  induction names with
  | nil => rfl
  | cons name names ih =>
    cases names with
    | nil => simp [List.intercalate]
    | cons next names =>
      rw [List.intercalate_cons_cons, List.append_assoc, List.singleton_append, Utf8.chars_append (by decide), ih]
      simp only [List.map_cons, List.intercalate_cons_cons, List.append_assoc, List.singleton_append]
      rfl

theorem intercalate_concat (front : List (List Char)) (last : List Char) :
    ['/'].intercalate (front ++ [last]) = front.flatMap (· ++ ['/']) ++ last := by
  induction front with
  | nil => simp [List.intercalate]
  | cons name front ih =>
    obtain ⟨next, more, split⟩ : ∃ next more, front ++ [last] = next :: more :=
      List.exists_cons_of_ne_nil (by simp)
    rw [List.cons_append, split, List.intercalate_cons_cons, ← split, ih, List.flatMap_cons]
    simp

theorem withSlash_of_slash {s : String} (ends : s.toList.getLast? = some '/') : withSlash s = s := by
  rw [withSlash, if_pos (endsWith_slash_iff.mpr ends)]

theorem withSlash_of_other {s : String} (other : s.toList.getLast? ≠ some '/') : withSlash s = s ++ "/" := by
  rw [withSlash, if_neg (mt endsWith_slash_iff.mp other)]

/-- What stands for a name that a path can have. -/
theorem chars_plain {name : List UInt8} (plain : PlainName name) :
    Utf8.chars name ≠ [] ∧ '/' ∉ Utf8.chars name := by
  constructor
  · obtain ⟨b, rest, whole⟩ := List.exists_cons_of_ne_nil plain.ne_nil
    rw [whole, Utf8.chars_cons]
    exact List.cons_ne_nil _ _
  · exact Utf8.not_mem_chars (a := slash) (by decide) plain.noSlash

/-- The text of a directory below the root has a slash behind each name. -/
theorem withSlash_root {names : List (List UInt8)} (plain : ∀ name ∈ names, PlainName name) :
    (withSlash (ofComponents true names).text).toList =
      '/' :: (names.map Utf8.chars).flatMap (· ++ ['/']) := by
  have whole : (ofComponents true names).text.toList = '/' :: ['/'].intercalate (names.map Utf8.chars) := by
    rw [FilePath.text, Utf8.lossy_toList, ← chars_intercalate]
    exact Utf8.chars_append (a := slash) (by decide) [] _
  rcases List.eq_nil_or_concat names with rfl | ⟨front, last, rfl⟩
  · rw [withSlash_of_slash (by rw [whole]; rfl), whole]
    rfl
  · rw [List.concat_eq_append] at plain whole ⊢
    obtain ⟨filled, clean⟩ := chars_plain (plain last (by simp))
    rw [List.map_append, List.map_cons, List.map_nil, intercalate_concat] at whole
    have other : (ofComponents true (front ++ [last])).text.toList.getLast? ≠ some '/' := by
      rw [whole, ← List.cons_append, List.getLast?_append_of_ne_nil _ filled]
      exact fun ends => clean (List.mem_of_getLast? ends)
    rw [withSlash_of_other other, String.toList_append, whole]
    simp

/-- The text of a directory that does not start at the root is a slash, or starts with a name. -/
theorem withSlash_relative {names : List (List UInt8)} (plain : ∀ name ∈ names, name ≠ [] ∧ slash ∉ name) :
    names = [] ∧ withSlash (ofComponents false names).text = "/" ∨
      names ≠ [] ∧ ∃ c rest, c ≠ '/' ∧ (withSlash (ofComponents false names).text).toList = c :: rest := by
  cases names with
  | nil => exact Or.inl ⟨rfl, rfl⟩
  | cons name names =>
    refine Or.inr ⟨List.cons_ne_nil _ _, ?_⟩
    obtain ⟨filled, clean⟩ := plain name List.mem_cons_self
    obtain ⟨b, more, rfl⟩ := List.exists_cons_of_ne_nil filled
    obtain ⟨rest, start⟩ : ∃ rest, [slash].intercalate ((b :: more) :: names) = b :: rest := by
      cases names with
      | nil => exact ⟨more, by simp [List.intercalate]⟩
      | cons next names => exact ⟨_, by rw [List.intercalate_cons_cons, List.cons_append, List.cons_append]⟩
    have text : (ofComponents false ((b :: more) :: names)).text.toList = Utf8.chars (b :: rest) := by
      rw [FilePath.text, Utf8.lossy_toList, ← start]
      rfl
    rw [Utf8.chars_cons] at text
    have other : (Utf8.sequence b rest).2.getD (Char.ofNat 0xFFFD) ≠ '/' := by
      intro read
      have same := Utf8.sequence_eq_ascii (a := slash) (by decide) read
      exact clean (same ▸ List.mem_cons_self)
    rw [withSlash]
    split
    · exact ⟨_, _, other, text⟩
    · exact ⟨_, _, other, by rw [String.toList_append, text, List.cons_append]⟩

/-! ## Files in a directory -/

theorem splitOn_append {front : List Char} (clean : '/' ∉ front) (back : List Char) :
    (front ++ '/' :: back).splitOn '/' = front :: back.splitOn '/' := by
  have whole : front.splitOn '/' = [front] := by
    have single : (['/'].intercalate [front]).splitOn '/' = [front] :=
      List.splitOn_intercalate '/' (by simpa using clean) (by simp)
    simpa [List.intercalate] using single
  rw [List.splitOn, List.splitOnP_append_cons _ _ (by simp), ← List.splitOn, whole]
  rfl

/-- A directory's text starts a path just if its names start the segments of the path, and there are more. -/
theorem flatMap_prefix_iff {names : List (List Char)} (clean : ∀ name ∈ names, '/' ∉ name) (path : List Char) :
    names.flatMap (· ++ ['/']) <+: path ↔ names <+: path.splitOn '/' ∧ names ≠ path.splitOn '/' := by
  induction names generalizing path with
  | nil => simp
  | cons name names ih =>
    have later := ih fun other member => clean other (List.mem_cons_of_mem _ member)
    have whole := clean name List.mem_cons_self
    rw [List.flatMap_cons, List.append_assoc, List.singleton_append]
    constructor
    · rintro ⟨rest, rfl⟩
      rw [List.append_assoc, List.cons_append, splitOn_append whole, List.cons_prefix_cons]
      obtain ⟨start, more⟩ := (later (names.flatMap (· ++ ['/']) ++ rest)).mp (List.prefix_append _ _)
      exact ⟨⟨rfl, start⟩, fun same => more (List.cons.inj same).2⟩
    · rintro ⟨⟨others, split⟩, more⟩
      have filled : names ++ others ≠ [] := by
        intro empty
        rw [List.cons_append, empty] at split
        rw [(List.append_eq_nil_iff.mp empty).1] at more
        exact more split
      obtain ⟨next, rest, shape⟩ := List.exists_cons_of_ne_nil filled
      have apart : path = name ++ '/' :: ['/'].intercalate (names ++ others) := by
        have rejoined : ['/'].intercalate (path.splitOn '/') = path := List.intercalate_splitOn '/'
        rw [← rejoined, ← split, List.cons_append, shape, List.intercalate_cons_cons, List.append_assoc,
          List.singleton_append]
      rw [apart, splitOn_append whole, List.cons_append, List.cons.injEq] at split
      rw [apart]
      apply (List.prefix_append_right_inj name).mpr
      apply (List.prefix_cons_inj '/').mpr
      refine (later _).mpr ⟨⟨others, split.2⟩, fun same => more ?_⟩
      rw [apart, splitOn_append whole, ← same]

/-! ## The match -/

theorem closeDrive_append (bytes : List UInt8) : ∃ more, Url.closeDrive bytes = bytes ++ more := by
  rw [Url.closeDrive]
  split
  · split
    · exact ⟨[slash], rfl⟩
    · exact ⟨[], (List.append_nil _).symm⟩
  · exact ⟨[], (List.append_nil _).symm⟩

/-- The path of a document's file starts at the root. -/
theorem filePath?_absolute {document : TextDocument} {p : FilePath} (placed : document.filePath? = some p) :
    ∃ path, p.text.toList = '/' :: path := by
  rw [TextDocument.filePath?, Url.filePath?, Option.ite_none_right_eq_some, Url.localPath?,
    Option.ite_none_right_eq_some] at placed
  obtain ⟨-, -, local_⟩ := placed
  split at local_
  · rename_i rest _
    obtain ⟨piece, others, split⟩ := List.exists_cons_of_ne_nil (FilePath.splitBytes_ne_nil slash rest)
    obtain ⟨more, closed⟩ := closeDrive_append (((splitBytes slash rest).map Url.decodeBytes).flatMap (slash :: ·))
    simp only [closed, Option.some.injEq] at local_
    rw [← local_, FilePath.text, Utf8.lossy_toList, split, List.map_cons, List.flatMap_cons, List.cons_append,
      List.cons_append]
    exact ⟨_, Utf8.chars_append (a := slash) (by decide) [] _⟩
  · cases local_

section Match

variable {directory file : String} {folder : Option FilePath} {path : List Char}

theorem matchDirectory?_root (root : StartsAtRoot directory folder) (absolute : file.toList = '/' :: path)
    (r : String) :
    matchDirectory? directory (some file) folder = some r ↔
      directoryNames directory folder <+: path.splitOn '/' ∧
        directoryNames directory folder ≠ path.splitOn '/' ∧
        r.toList = '/' :: (directoryNames directory folder).flatMap (· ++ ['/']) := by
  have names := foldl_foldStep_root (pieces directory folder) []
  rw [List.reverse_nil, List.map_nil] at names
  have plain : ∀ name ∈ (pieces directory folder).foldl descend [], PlainName name := by
    rw [← names, ← steps_joined]
    exact FilePath.follow_plain _
  have same : ((pieces directory folder).foldl descend []).map Utf8.chars =
      directoryNames directory folder := by
    simp only [directoryNames, Utf8.lossy_toList]
  have clean : ∀ name ∈ directoryNames directory folder, '/' ∉ name := by
    rw [← same]
    intro name member
    obtain ⟨bytes, inside, rfl⟩ := List.mem_map.mp member
    exact (chars_plain (plain bytes inside)).2
  have text := withSlash_root plain
  rw [same] at text
  rw [matchDirectory?_eq, Option.ite_none_right_eq_some, List.isPrefixOf_iff_prefix, Option.some.injEq,
    normalize_eq, steps_joined, (isAbsolute_joined directory folder).mpr root, names, absolute, text,
    List.cons_prefix_cons, flatMap_prefix_iff clean, ← String.toList_inj, text]
  simp only [true_and, and_assoc, eq_comm]

theorem matchDirectory?_nowhere (elsewhere : ¬ StartsAtRoot directory folder)
    (absolute : file.toList = '/' :: path) (r : String) :
    matchDirectory? directory (some file) folder = some r ↔ LeadsNowhere directory folder ∧ r = "/" := by
  have relative : (joined directory folder).isAbsolute = false :=
    Bool.eq_false_iff.mpr (mt (isAbsolute_joined directory folder).mp elsewhere)
  have nowhere : ((pieces directory folder).filterMap step?).foldl (foldStep false) [] = [] ↔
      LeadsNowhere directory folder := foldl_foldStep_relative (pieces directory folder) []
  have plain : ∀ name ∈ (((pieces directory folder).filterMap step?).foldl (foldStep false) []).reverse.map
      Component.bytes, name ≠ [] ∧ slash ∉ name := by
    rw [← steps_joined]
    exact foldl_foldStep_plain (joined directory folder)
  rw [matchDirectory?_eq, Option.ite_none_right_eq_some, List.isPrefixOf_iff_prefix, Option.some.injEq,
    normalize_eq, steps_joined, absolute, relative]
  rcases withSlash_relative plain with ⟨empty, text⟩ | ⟨filled, c, rest, other, text⟩
  · rw [List.map_eq_nil_iff, List.reverse_eq_nil_iff] at empty
    have start : "/".toList <+: '/' :: path := ⟨path, rfl⟩
    simp only [text, start, nowhere.mp empty, true_and, eq_comm]
  · rw [Ne, List.map_eq_nil_iff, List.reverse_eq_nil_iff, nowhere] at filled
    rw [text, List.cons_prefix_cons]
    simp only [other, filled, false_and]

end Match

/-- An entry matches the files in its directory, which then is the result: the names of the directory are a
proper start of the segments of the file's path. Only an entry that leads from the root has a directory. Of
all others just those that lead nowhere match, and then every file, with the root as the result. -/
theorem matchDirectory?_exact (directory : String) (folder : Option FilePath) {file : String}
    {path : List Char} (absolute : file.toList = '/' :: path) (r : String) :
    matchDirectory? directory (some file) folder = some r ↔
      (StartsAtRoot directory folder ∧ directoryNames directory folder <+: path.splitOn '/' ∧
        directoryNames directory folder ≠ path.splitOn '/' ∧
        r.toList = '/' :: (directoryNames directory folder).flatMap (· ++ ['/'])) ∨
      (¬ StartsAtRoot directory folder ∧ LeadsNowhere directory folder ∧ r = "/") := by
  by_cases root : StartsAtRoot directory folder
  · simp only [matchDirectory?_root root absolute, root, true_and, not_true_eq_false, false_and, or_false]
  · simp only [matchDirectory?_nowhere root absolute, root, false_and, false_or, not_false_eq_true, true_and]

theorem matchDirectory?_exact_dot :
    matchDirectory? "." (some "/a/b.js") none = some "/" ∧
      matchDirectory? "../lib" (some "/ws/lib/x.js") (some (.ofString "/ws/app")) = some "/ws/lib/" := by
  constructor
  · have absolute : "/a/b.js".toList = '/' :: "a/b.js".toList := rfl
    apply (matchDirectory?_exact "." none absolute "/").mpr
    exact Or.inr ⟨by decide +kernel, by decide +kernel, rfl⟩
  · have absolute : "/ws/lib/x.js".toList = '/' :: "ws/lib/x.js".toList := rfl
    apply (matchDirectory?_exact "../lib" (some (.ofString "/ws/app")) absolute "/ws/lib/").mpr
    exact Or.inl ⟨by decide +kernel, by decide +kernel, by decide +kernel, by decide +kernel⟩

end LinterClient.WorkingDirectory
