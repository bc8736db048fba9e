import Mathlib.Data.List.Induction
import LinterClient.Proofs.FilePath
import LinterClient.Proofs.Text.Lossy
import LinterClient.Proofs.WorkingDirectory

/-!
The names in the path of a `file` URL.

A slash that is written in a URL is a slash of the file's path, and one that is encoded becomes one. So the
names of the path are those that the segments of the URL decode to, one after the other. What is encoded of
a name decodes to it again.
-/

namespace LinterClient

/-! ## Names of paths -/

namespace FilePath

/-- The pieces of some bytes between slashes that are not empty. -/
def namesIn (bytes : List UInt8) : List (List UInt8) :=
  (splitBytes slash bytes).filter (· ≠ [])

/-- The names that a path is made of. -/
def names (p : FilePath) : List (List UInt8) :=
  namesIn p.bytes

@[simp] theorem namesIn_nil : namesIn [] = [] := rfl

theorem namesIn_append (front back : List UInt8) :
    namesIn (front ++ slash :: back) = namesIn front ++ namesIn back := by
  rw [namesIn, splitBytes_append, List.filter_append]
  rfl

theorem namesIn_slash (bytes : List UInt8) : namesIn (slash :: bytes) = namesIn bytes :=
  namesIn_append [] bytes

theorem namesIn_flatMap (pieces : List (List UInt8)) :
    namesIn (pieces.flatMap (slash :: ·)) = pieces.flatMap namesIn := by
  induction pieces with
  | nil => rfl
  | cons piece pieces ih =>
    rw [List.flatMap_cons, List.flatMap_cons, ← ih, List.cons_append, namesIn_slash]
    cases pieces with
    | nil => simp
    | cons next pieces =>
      rw [List.flatMap_cons, List.cons_append, namesIn_append, namesIn_slash]

theorem namesIn_whole {name : List UInt8} (filled : name ≠ []) (clean : slash ∉ name) :
    namesIn name = [name] := by
  rw [namesIn, splitBytes_whole clean]
  simp [filled]

end FilePath

/-! ## Names of URLs -/

namespace Url

open FilePath (slash splitBytes namesIn)

/-- The names that one segment of a URL's path stands for: more than one if it encodes a slash. -/
def segmentNames (segment : List Char) : List (List UInt8) :=
  namesIn (decodeBytes (segment.flatMap String.utf8EncodeChar))

theorem namesIn_closeDrive (bytes : List UInt8) : namesIn (closeDrive bytes) = namesIn bytes := by
  rw [closeDrive]
  split
  · split
    · rw [FilePath.namesIn_append]
      simp
    · rfl
  · rfl

theorem encodeChar_noSlash {c : Char} (other : c ≠ '/') : slash ∉ String.utf8EncodeChar c := by
  have code : c.val.toNat ≠ 47 := by
    intro same
    exact other (Char.ext (UInt32.toNat_inj.mp same))
  have bound : c.val.toNat < 0x110000 := by
    rcases c.valid with low | high
    · omega
    · exact high.2
  have byte : slash = UInt8.ofNat 47 := rfl
  simp only [String.utf8EncodeChar, byte]
  -- one to four bytes
  split_ifs <;>
    simp (disch := omega) only [List.mem_cons, List.not_mem_nil, Utf8.ofNat_eq_iff, or_false] <;> omega

theorem splitBytes_append_clean {front : List UInt8} (clean : slash ∉ front) (back : List UInt8) :
    splitBytes slash (front ++ back) = (splitBytes slash back).modifyHead (front ++ ·) := by
  induction front with
  | nil =>
    rw [List.nil_append]
    cases splitBytes slash back <;> rfl
  | cons b front ih =>
    have other : b ≠ slash := fun same => clean (same ▸ List.mem_cons_self)
    have later := ih fun member => clean (List.mem_cons_of_mem _ member)
    rw [List.cons_append, splitBytes, if_neg other, later]
    cases pieces : splitBytes slash back with
    | nil => exact absurd pieces (FilePath.splitBytes_ne_nil slash back)
    | cons piece more => rfl

/-- A text has a slash where its bytes have one. -/
theorem splitBytes_encode (s : List Char) :
    splitBytes slash (s.flatMap String.utf8EncodeChar) =
      (s.splitOn '/').map (·.flatMap String.utf8EncodeChar) := by
  induction s with
  | nil => rfl
  | cons c s ih =>
    rw [List.flatMap_cons, List.splitOn, List.splitOnP_cons_eq_if_modifyHead, ← List.splitOn]
    by_cases same : c = '/'
    · subst same
      have byte : String.utf8EncodeChar '/' = [slash] := by decide
      rw [byte, List.singleton_append, splitBytes, if_pos rfl, ih]
      rfl
    · have later : (c == '/') = false := by simpa using same
      rw [splitBytes_append_clean (encodeChar_noSlash same), ih, later]
      cases s.splitOn '/' <;> rfl

theorem names_of_filePath? {u : Url} {p : FilePath} (placed : u.filePath? = some p) :
    p.names = (u.path.toList.splitOn '/').flatMap segmentNames := by
  rw [filePath?, Option.ite_none_right_eq_some, localPath?, Option.ite_none_right_eq_some] at placed
  obtain ⟨-, -, local_⟩ := placed
  split at local_
  · rename_i rest bytes
    cases local_
    have pieces := splitBytes_encode u.path.toList
    rw [← Utf8.encode_eq_flatMap, bytes] at pieces
    have first : splitBytes slash (0x2F :: rest) = [] :: splitBytes slash rest := rfl
    rw [FilePath.names, namesIn_closeDrive, FilePath.namesIn_flatMap, List.flatMap_map]
    have whole : ((u.path.toList.splitOn '/').map (·.flatMap String.utf8EncodeChar)).flatMap
        (fun piece => namesIn (decodeBytes piece)) = (u.path.toList.splitOn '/').flatMap segmentNames :=
      List.flatMap_map ..
    rw [← whole, ← pieces, first]
    rfl
  · cases local_

/-- A slash that is encoded parts names as well, and nothing is no name. -/
example : ((⟨"file", some ⟨"", .empty, none⟩, "/a%2Fb//c%64/", none, none⟩ : Url).filePath?.map FilePath.names) =
    some (["a", "b", "cd"].map Utf8.encode) := by
  decide +kernel

/-- Slashes at the end of a path add no names. -/
theorem names_trimSlashes (path : String) :
    ((trimSlashes path).toList.splitOn '/').flatMap segmentNames =
      (path.toList.splitOn '/').flatMap segmentNames := by
  rw [trimSlashes, String.toList_ofList]
  induction path.toList using List.reverseRecOn with
  | nil => rfl
  | append_singleton front c ih =>
    rw [List.reverse_append, List.reverse_singleton, List.singleton_append, List.dropWhile_cons]
    by_cases same : c = '/'
    · subst same
      have last : (front ++ ['/']).splitOn '/' = front.splitOn '/' ++ [[]] :=
        List.splitOnP_append_cons front [] (by simp)
      have nothing : segmentNames [] = [] := rfl
      rw [if_pos (by simp), ih, last, List.flatMap_append, List.flatMap_singleton, nothing, List.append_nil]
    · rw [if_neg (by simpa using same)]
      simp

/-! ## Encoded names -/

/-- How one byte of a name is written in a URL. -/
def written (b : UInt8) : List Char :=
  if b < 0x80 then encodeChar segmentSet (Char.ofNat b.toNat) else encodeByte b

theorem encodeChar_ascii {c : Char} (ascii : c.toNat < 128) :
    String.utf8EncodeChar c = [c.toNat.toUInt8] := by
  have bytes := Utf8.encode_ofList [c] (by simpa using ascii)
  rw [Utf8.encode_eq_flatMap] at bytes
  simpa using bytes

/-- A byte is written as itself or in encoded form. -/
theorem written_cases (b : UInt8) :
    (∃ c : Char, written b = [c] ∧ c.toNat = b.toNat ∧ b.toNat < 128 ∧ c ≠ '%' ∧ c ≠ '/') ∨
      written b = encodeByte b := by
  rw [written]
  split
  · rename_i small
    have ascii : b.toNat < 128 := UInt8.lt_iff_toNat_lt.mp small
    have code := Utf8.toNat_ofNat_ascii b.toNat ascii
    rw [encodeChar]
    split
    · right
      have bytes : Utf8.encode (Char.ofNat b.toNat).toString = [b] := by
        have single := Utf8.encode_ofList [Char.ofNat b.toNat] (by simpa [code] using ascii)
        simpa [code] using single
      rw [bytes, List.flatMap_singleton]
    · rename_i plain
      left
      refine ⟨_, rfl, code, ascii, ?_, ?_⟩
      · intro same
        exact plain (by rw [same]; decide)
      · intro same
        exact plain (by rw [same]; decide)
  · exact Or.inr rfl

theorem hexUpper_ascii : ∀ n < 16, (hexUpper n).toNat < 128 ∧ hexUpper n ≠ '/' := by decide

theorem hexValue?_hexUpper : ∀ n < 16, hexValue? (hexUpper n).toNat.toUInt8 = some n.toUInt8 := by decide

theorem decodeBytes_plain {b : UInt8} (plain : b ≠ 37) (rest : List UInt8) :
    decodeBytes (b :: rest) = b :: decodeBytes rest := by
  rw [decodeBytes]
  rintro h l more same
  exact absurd same plain

/-- What is written of a byte is read back. -/
theorem decodeBytes_written (b : UInt8) (rest : List UInt8) :
    decodeBytes ((written b).flatMap String.utf8EncodeChar ++ rest) = b :: decodeBytes rest := by
  have size : b.toNat < 256 := UInt8.toNat_lt b
  rcases written_cases b with ⟨c, single, code, ascii, plain, -⟩ | encoded
  · have same : c.toNat.toUInt8 = b := by
      rw [code]
      exact UInt8.ofNat_toNat
    have other : b ≠ 37 := by
      rintro rfl
      exact plain (Char.ext (UInt32.toNat_inj.mp code))
    rw [single, List.flatMap_singleton, encodeChar_ascii (by omega), same]
    exact decodeBytes_plain other rest
  · have high := hexUpper_ascii (b.toNat / 16) (by omega)
    have low := hexUpper_ascii (b.toNat % 16) (by omega)
    have percent : String.utf8EncodeChar '%' = [37] := by decide
    rw [encoded, encodeByte, List.flatMap_cons, List.flatMap_cons, List.flatMap_singleton, percent,
      encodeChar_ascii high.1, encodeChar_ascii low.1]
    simp only [List.cons_append, List.nil_append]
    rw [decodeBytes, hexValue?_hexUpper _ (by omega), hexValue?_hexUpper _ (by omega)]
    have whole : 16 * (b.toNat / 16).toUInt8 + (b.toNat % 16).toUInt8 = b := by
      rw [← UInt8.toNat_inj]
      simp only [UInt8.toNat_add, UInt8.toNat_mul, UInt8.toNat_ofNat', Nat.toUInt8]
      simp
      omega
    simp only [whole]

theorem encodeSegment_toList (name : List UInt8) : (encodeSegment name).toList = name.flatMap written := by
  rw [encodeSegment, String.toList_ofList]
  rfl

theorem written_noSlash (b : UInt8) : '/' ∉ written b := by
  have size : b.toNat < 256 := UInt8.toNat_lt b
  rcases written_cases b with ⟨c, single, -, -, -, other⟩ | encoded
  · simpa [single] using other.symm
  · have high := (hexUpper_ascii (b.toNat / 16) (by omega)).2
    have low := (hexUpper_ascii (b.toNat % 16) (by omega)).2
    simp [encoded, encodeByte, high.symm, low.symm]

/-- A name is read back from what is written of it. -/
theorem decodeBytes_encodeSegment (name : List UInt8) :
    decodeBytes ((encodeSegment name).toList.flatMap String.utf8EncodeChar) = name := by
  rw [encodeSegment_toList]
  induction name with
  | nil => rfl
  | cons b name ih => rw [List.flatMap_cons, List.flatMap_append, decodeBytes_written, ih]

theorem encodeSegment_noSlash (name : List UInt8) : '/' ∉ (encodeSegment name).toList := by
  rw [encodeSegment_toList]
  intro member
  obtain ⟨b, -, inside⟩ := List.mem_flatMap.mp member
  exact written_noSlash b inside

theorem encodeSegment_injective : Function.Injective encodeSegment := by
  intro a b same
  rw [← decodeBytes_encodeSegment a, same, decodeBytes_encodeSegment]

theorem segmentNames_encodeSegment {name : List UInt8} (filled : name ≠ []) (clean : slash ∉ name) :
    segmentNames (encodeSegment name).toList = [name] := by
  rw [segmentNames, decodeBytes_encodeSegment, FilePath.namesIn_whole filled clean]

/-! ## URLs of paths -/

/-- The path of a URL with the given names, without a slash at its end. -/
def encodePath (names : List (List UInt8)) : List Char :=
  names.flatMap fun name => '/' :: (encodeSegment name).toList

theorem splitOn_encodePath (names : List (List UInt8)) :
    (encodePath names).splitOn '/' = [] :: names.map fun name => (encodeSegment name).toList := by
  have whole (name : List UInt8) : (encodeSegment name).toList.splitOn '/' = [(encodeSegment name).toList] := by
    have single : (['/'].intercalate [(encodeSegment name).toList]).splitOn '/' = [(encodeSegment name).toList] :=
      List.splitOn_intercalate '/' (by simpa using encodeSegment_noSlash name) (by simp)
    simpa using single
  have step (front back : List Char) : (front ++ '/' :: back).splitOn '/' = front.splitOn '/' ++ back.splitOn '/' :=
    List.splitOnP_append_cons _ _ (by simp)
  induction names using List.reverseRecOn with
  | nil => rfl
  | append_singleton names name ih =>
    rw [encodePath, List.flatMap_append, List.flatMap_singleton, step, ← encodePath, ih, whole, List.map_append]
    rfl

theorem bytes_plain (p : FilePath) :
    ∀ name ∈ p.components.map FilePath.Component.bytes, name ≠ [] ∧ slash ∉ name := by
  intro name member
  obtain ⟨c, inside, rfl⟩ := List.mem_map.mp member
  refine ⟨?_, FilePath.bytes_noSlash (fun _ => FilePath.components_plain) _ member⟩
  cases c with
  | current => exact List.cons_ne_nil _ _
  | parent => exact List.cons_ne_nil _ _
  | normal name => exact (FilePath.components_plain inside).ne_nil

theorem flatMap_segmentNames {names : List (List UInt8)} (plain : ∀ name ∈ names, name ≠ [] ∧ slash ∉ name) :
    (names.map fun name => (encodeSegment name).toList).flatMap segmentNames = names := by
  induction names with
  | nil => rfl
  | cons name names ih =>
    have first := plain name List.mem_cons_self
    rw [List.map_cons, List.flatMap_cons, segmentNames_encodeSegment first.1 first.2,
      ih fun other member => plain other (List.mem_cons_of_mem _ member)]
    rfl

theorem getLast?_encodePath {names : List (List UInt8)} (plain : ∀ name ∈ names, name ≠ [] ∧ slash ∉ name) :
    (encodePath names).getLast? ≠ some '/' := by
  cases names using List.reverseRecOn with
  | nil => simp [encodePath]
  | append_singleton names name =>
    have filled : (encodeSegment name).toList ≠ [] := by
      intro empty
      have nothing := decodeBytes_encodeSegment name
      rw [empty] at nothing
      exact (plain name (by simp)).1 nothing.symm
    rw [encodePath, List.flatMap_append, List.flatMap_singleton, List.append_cons,
      List.getLast?_append_of_ne_nil _ filled]
    intro last
    exact encodeSegment_noSlash name (List.mem_of_getLast? last)

theorem exists_names {u : Url} (file : u.scheme = "file") (place : u.authority = some ⟨"", .empty, none⟩)
    (start : u.path.toList.head? = some '/') :
    ∃ q, u.filePath? = some q ∧ q.names = (u.path.toList.splitOn '/').flatMap segmentNames := by
  obtain ⟨rest, absolute⟩ := List.head?_eq_some_iff.mp start
  have bytes : Utf8.encode u.path = 0x2F :: rest.flatMap String.utf8EncodeChar := by
    have byte : String.utf8EncodeChar '/' = [0x2F] := by decide
    rw [Utf8.encode_eq_flatMap, absolute, List.flatMap_cons, byte]
    rfl
  obtain ⟨q, placed⟩ : ∃ q, u.filePath? = some q := by
    simp [filePath?, localPath?, host?, file, place, bytes]
  exact ⟨q, placed, names_of_filePath? placed⟩

section OfPath

variable {p : FilePath} {u : Url}

/-- The names of an absolute path, which are all that its URL keeps of it. -/
def keptNames (p : FilePath) : List (List UInt8) :=
  p.components.map FilePath.Component.bytes

theorem path_of_ofFilePath? (made : ofFilePath? p = some u) :
    u.scheme = "file" ∧ u.authority = some ⟨"", .empty, none⟩ ∧
      u.path.toList = if keptNames p = [] then ['/'] else encodePath (keptNames p) := by
  rw [ofFilePath?, Option.ite_none_right_eq_some] at made
  cases made.2
  refine ⟨rfl, rfl, ?_⟩
  simp only [ofPathText, keptNames, List.map_eq_nil_iff]
  split
  · rfl
  · rw [encodePath, String.toList_join, List.flatMap_map, List.flatMap_map]
    simp

/-- The URL of a file's path has its names in encoded form, and leads back to them. -/
theorem names_of_ofFilePath? (made : ofFilePath? p = some u) :
    u.scheme = "file" ∧
    (u.path.toList.splitOn '/' = [] :: if keptNames p = [] then [[]]
      else (keptNames p).map fun name => (encodeSegment name).toList) ∧
    ∃ q, u.filePath? = some q ∧ q.names = keptNames p := by
  have parts := path_of_ofFilePath? made
  have start : u.path.toList.head? = some '/' := by
    rw [parts.2.2]
    cases keptNames p <;> rfl
  obtain ⟨q, placed, names⟩ := exists_names parts.1 parts.2.1 start
  have segments : u.path.toList.splitOn '/' = [] :: if keptNames p = [] then [[]]
      else (keptNames p).map fun name => (encodeSegment name).toList := by
    rw [parts.2.2]
    split
    · rfl
    · exact splitOn_encodePath _
  refine ⟨parts.1, segments, q, placed, ?_⟩
  rw [names, segments, List.flatMap_cons]
  split
  · rename_i root
    rw [root]
    rfl
  · exact flatMap_segmentNames (bytes_plain p)

theorem path_of_ofDirectoryPath? (made : ofDirectoryPath? p = some u) :
    u.scheme = "file" ∧ u.authority = some ⟨"", .empty, none⟩ ∧ u.path.toList = encodePath (keptNames p) ++ ['/'] := by
  obtain ⟨u', file, same⟩ := Option.map_eq_some_iff.mp made
  have parts := path_of_ofFilePath? file
  subst same
  by_cases root : keptNames p = []
  · rw [if_pos root] at parts
    have ends : u'.path.endsWith "/" = true := WorkingDirectory.endsWith_slash_iff.mpr (by simp [parts.2.2])
    rw [if_pos ends, root]
    exact parts
  · rw [if_neg root] at parts
    have open_ : ¬ u'.path.endsWith "/" = true := by
      rw [WorkingDirectory.endsWith_slash_iff, parts.2.2]
      exact getLast?_encodePath (bytes_plain p)
    rw [if_neg open_]
    exact ⟨parts.1, parts.2.1, by rw [String.toList_append, parts.2.2]; rfl⟩

/-- The URL of a directory's path does so too, but for the slash at its end. -/
theorem names_of_ofDirectoryPath? (made : ofDirectoryPath? p = some u) :
    u.scheme = "file" ∧
    ((trimSlashes u.path).toList.splitOn '/' = [] :: (keptNames p).map fun name => (encodeSegment name).toList) ∧
    ∃ q, u.filePath? = some q ∧ q.names = keptNames p := by
  have parts := path_of_ofDirectoryPath? made
  have start : u.path.toList.head? = some '/' := by
    rw [parts.2.2]
    cases keptNames p <;> rfl
  obtain ⟨q, placed, names⟩ := exists_names parts.1 parts.2.1 start
  have trimmed : (trimSlashes u.path).toList = encodePath (keptNames p) := by
    have last := getLast?_encodePath (bytes_plain p)
    rw [← keptNames, List.getLast?_eq_head?_reverse] at last
    have kept : (encodePath (keptNames p)).reverse.dropWhile (· = '/') = (encodePath (keptNames p)).reverse := by
      cases reversed : (encodePath (keptNames p)).reverse with
      | nil => rfl
      | cons c front =>
        rw [reversed] at last
        exact List.dropWhile_cons_of_neg (by simpa using last)
    rw [trimSlashes, String.toList_ofList, parts.2.2, List.reverse_append, List.reverse_singleton,
      List.singleton_append, List.dropWhile_cons_of_pos (by simp), kept, List.reverse_reverse]
  refine ⟨parts.1, by rw [trimmed, splitOn_encodePath], q, placed, ?_⟩
  rw [names, ← names_trimSlashes, trimmed, splitOn_encodePath, List.flatMap_cons]
  exact flatMap_segmentNames (bytes_plain p)

end OfPath

end Url

end LinterClient
