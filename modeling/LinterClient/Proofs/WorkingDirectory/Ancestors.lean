import LinterClient.Proofs.Glob.Ends
import LinterClient.Proofs.WorkingDirectory

/-!
Working directories and the documents in them.

A working directory is the start of its document's path. The slash that closes the glob of a pattern lets it
end with a slash too, unless that slash makes any number of segments of two stars before it: of none, the
match ends where the rest of the pattern does, and that may be within a name.
-/

namespace LinterClient.WorkingDirectory

open Glob (Run Reads)
open Settings (WorkingDirectoryEntry)

/-- A glob ends with any number of segments, and what is in front of them matches up to a place inside the
last name of the file's path. -/
def EndsInName (glob file : String) : Prop :=
  ∃ front : Run, Reads glob (front.append (.piece .segments .nil)) ∧
    ∃ m, Glob.match? (String.ofList front.text) file = some m ∧ m.toList.getLast? ≠ some '/' ∧
      '/' ∉ file.toList.drop m.toList.length

/-- Whether an entry is a pattern whose glob ends inside the name of the file. -/
def CutsName (file : String) (root : Option FilePath) : WorkingDirectoryEntry → Prop
  | .pattern p _ => EndsInName (fullPattern p root) file
  | _ => False

theorem match?_prefix {glob file d : String} (found : Glob.match? glob file = some d) :
    d.toList <+: file.toList := by
  obtain ⟨⟨text, r⟩, -, matched⟩ := Option.bind_eq_some_iff.mp found
  exact (Regex.mem_language_of_find? matched).2

/-- A match that ends with segments goes on from a match of what is in front of them to the last slash. -/
theorem match?_segments {glob file d : String} {front : Run}
    (reads : Reads glob (front.append (.piece .segments .nil))) (found : Glob.match? glob file = some d) :
    ∃ (m : String) (u t : List Char), Glob.match? (String.ofList front.text) file = some m ∧
      file.toList = m.toList ++ (u ++ t) ∧ d.toList = m.toList ++ u ∧ '/' ∉ t ∧
      (u = [] ∨ u.getLast? = some '/') := by
  rw [reads.match?_eq] at found
  obtain ⟨r, compiled, matched⟩ := Option.bind_eq_some_iff.mp found
  obtain ⟨rs, rs', back, alone, rfl⟩ := Run.regex?_append compiled
  cases back
  obtain ⟨m, u, t, before, split, whole, clean, kind⟩ := Glob.find?_segments matched
  have readsFront : Reads (String.ofList front.text) front := ⟨reads.1.front, by rw [String.toList_ofList]⟩
  refine ⟨m, u, t, ?_, split, whole, clean, kind⟩
  rw [readsFront.match?_eq, alone, Option.bind_some, before]

theorem ends_iff_of_segments {glob file d : String} {front : Run}
    (reads : Reads glob (front.append (.piece .segments .nil))) (found : Glob.match? glob file = some d) :
    ∃ m, Glob.match? (String.ofList front.text) file = some m ∧
      (d.toList.getLast? = some '/' ↔
        m.toList.getLast? = some '/' ∨ '/' ∈ file.toList.drop m.toList.length) := by
  obtain ⟨m, u, t, before, split, whole, clean, kind⟩ := match?_segments reads found
  refine ⟨m, before, ?_⟩
  rw [split, whole, List.drop_left, List.mem_append]
  rcases kind with rfl | ends
  · simp [clean]
  · have filled : u ≠ [] := by
      rintro rfl
      cases ends
    have member := List.mem_of_getLast? ends
    rw [List.getLast?_append_of_ne_nil _ filled]
    simp [ends, member]

/-- A match of a glob that ends with a slash ends with a slash, unless the glob ends in a name. -/
theorem match?_ends_iff {glob file d : String} (closed : glob.toList.getLast? = some '/')
    (found : Glob.match? glob file = some d) :
    d.toList.getLast? = some '/' ↔ ¬ EndsInName glob file := by
  constructor
  · rintro ends ⟨front, reads, m, before, inName, lastName⟩
    obtain ⟨m', before', places⟩ := ends_iff_of_segments reads found
    cases before.symm.trans before'
    exact (places.mp ends).elim inName lastName
  · intro whole
    obtain ⟨⟨text, r⟩, accepted, matched⟩ := Option.bind_eq_some_iff.mp found
    obtain ⟨run, reads, compiled⟩ := Glob.reads_of_compile? accepted
    obtain ⟨front, p, rfl, rfl | rfl⟩ := run.ends_slash (by rw [reads.2, closed])
    · obtain ⟨rs, rs', back, -, rfl⟩ := Run.regex?_append compiled
      cases back
      exact Glob.find?_slash matched
    · obtain ⟨m, before, places⟩ := ends_iff_of_segments reads found
      by_contra within
      rw [places, not_or] at within
      exact whole ⟨front, reads, m, before, within⟩

section Entry

variable {file d : String} {root : Option FilePath}

theorem matchDirectory?_ancestor {directory : String}
    (found : matchDirectory? directory (some file) root = some d) :
    d.toList.getLast? = some '/' ∧ d.toList <+: file.toList := by
  simp only [matchDirectory?, Option.bind_some, Option.ite_none_right_eq_some, List.isPrefixOf_iff_prefix,
    Option.some.injEq] at found
  obtain ⟨start, rfl⟩ := found
  exact ⟨withSlash_ends _, start⟩

theorem matchPattern?_ancestor {pattern : String} (found : matchPattern? pattern (some file) root = some d) :
    (d.toList.getLast? = some '/' ↔ ¬ EndsInName (fullPattern pattern root) file) ∧
      d.toList <+: file.toList := by
  rw [matchPattern?, Option.bind_some, Option.ite_none_left_eq_some] at found
  exact ⟨match?_ends_iff (withSlash_ends _) found.2, match?_prefix found.2⟩

theorem matched?_ancestor {e : WorkingDirectoryEntry} (found : matched? (some file) root e = some d) :
    (d.toList.getLast? = some '/' ↔ ¬ CutsName file root e) ∧ d.toList <+: file.toList := by
  have directory {directory : String} (found : matchDirectory? directory (some file) root = some d) :
      (d.toList.getLast? = some '/' ↔ ¬ False) ∧ d.toList <+: file.toList := by
    obtain ⟨ends, start⟩ := matchDirectory?_ancestor found
    exact ⟨iff_of_true ends id, start⟩
  cases e with
  | path => exact directory found
  | legacy => exact directory found
  | directory => exact directory found
  | pattern => exact matchPattern?_ancestor found
  | mode => cases found
  | unrecognized => cases found

theorem matched?_none (e : WorkingDirectoryEntry) : matched? none root e = none := by
  cases e <;> rfl

end Entry

/-- A working directory is the start of its document's path, and ends with a slash unless the entry that it
comes from is a pattern that ends inside the name of the document. -/
theorem resolve_ancestor {entries : List WorkingDirectoryEntry} {document : TextDocument}
    {folder : Option WorkspaceFolder} {d : String} {stays : Bool}
    (found : resolve entries document folder = some (.directory d stays)) :
    ∃ file, document.filePath?.map (·.text) = some file ∧ d.toList <+: file.toList ∧
      ∃ e ∈ entries, matched? (some file) (folder.bind (·.path?)) e = some d ∧
        (d.endsWith "/" = true ↔ ¬ CutsName file (folder.bind (·.path?)) e) := by
  have chosen := chosen_scan (document.filePath?.map (·.text)) (folder.bind (·.path?)) entries
  rw [← resolve, found] at chosen
  rcases chosen with ⟨e, text, ⟨matched, before, later, split, -⟩, same⟩ | ⟨-, same⟩
  · cases same
    cases path : document.filePath?.map (·.text) with
    | none =>
      rw [path, matched?_none] at matched
      cases matched
    | some file =>
      rw [path] at matched
      obtain ⟨ends, start⟩ := matched?_ancestor matched
      have member : e ∈ entries := by
        have inside : e ∈ sinceMode entries := by simp [split]
        exact (List.rtakeWhile_suffix _ _).subset inside
      exact ⟨file, rfl, start, e, member, matched, endsWith_slash_iff.trans ends⟩
  · cases mode : lastMode? entries <;> rw [mode] at same <;> cases same

theorem resolve_ancestor_cut :
    let document : TextDocument :=
      ⟨⟨"file", some ⟨"", .empty, none⟩, "/ws/srcfile.js", none, none⟩, "javascript"⟩
    let folder : WorkspaceFolder := ⟨"ws", ⟨"file", some ⟨"", .empty, none⟩, "/ws", none, none⟩⟩
    resolve [.pattern "src**" none] document (some folder) = some (.directory "/ws/src" false) ∧
      CutsName "/ws/srcfile.js" folder.path? (.pattern "src**" none) := by
  intro document folder
  have found : resolve [.pattern "src**" none] document (some folder) = some (.directory "/ws/src" false) := by
    decide +kernel
  obtain ⟨file, path, -, e, member, -, ends⟩ := resolve_ancestor found
  have known : document.filePath?.map (·.text) = some "/ws/srcfile.js" := by decide +kernel
  cases path.symm.trans known
  rw [List.mem_singleton] at member
  subst member
  refine ⟨found, ?_⟩
  by_contra whole
  exact absurd (ends.mpr whole) (by decide +kernel)

end LinterClient.WorkingDirectory
