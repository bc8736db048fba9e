import Mathlib.Data.List.Infix
import LinterClient.Proofs.Url
import LinterClient.Proofs.Workspace

/-!
Folders by their URLs and by their paths.

A document in a folder has the folder's names at the start of its path. The other way round this holds if its
URL spells them as the folder's does, which all URLs do that are made of paths. Hosts are not asked for.
-/

namespace LinterClient.Workspace

open Url (keptNames)

theorem names_prefix_of_segments {f : WorkspaceFolder} {uri : Url} {p q : FilePath} (place : f.path? = some p)
    (place' : uri.filePath? = some q) (inside : segments f.root <+: segments uri.path) : p.names <+: q.names := by
  rw [Url.names_of_filePath? place, Url.names_of_filePath? place', ← Url.names_trimSlashes]
  exact List.IsPrefix.flatMap inside Url.segmentNames

/-- A folder that is made of a directory contains the documents that are made of the files below it. -/
theorem contains_of_paths {f : WorkspaceFolder} {uri : Url} {p q : FilePath}
    (folder : WorkspaceFolder.ofPath? p = some f) (document : Url.ofFilePath? q = some uri) :
    f.contains uri = true ↔ keptNames p <+: keptNames q := by
  obtain ⟨u, directory, same⟩ := Option.map_eq_some_iff.mp folder
  have above := Url.names_of_ofDirectoryPath? directory
  have below := Url.names_of_ofFilePath? document
  subst same
  rw [contains_iff, segments, segments, WorkspaceFolder.root, above.2.1, below.2.1, above.1, below.1,
    List.cons_prefix_cons]
  have injective : Function.Injective fun name => (Url.encodeSegment name).toList :=
    fun _ _ equal => Url.encodeSegment_injective (String.toList_inj.mp equal)
  simp only [true_and]
  split
  · rename_i root
    rw [root, List.prefix_nil]
    cases names : keptNames p with
    | nil => simp
    | cons name names' =>
      have filled : name ≠ [] := (Url.bytes_plain p name (by rw [← keptNames, names]; simp)).1
      have written : (Url.encodeSegment name).toList ≠ [] := by
        intro empty
        exact filled (Url.encodeSegment_injective (String.toList_eq_nil_iff.mp empty))
      simp [written]
  · exact List.prefix_map_iff_of_injective injective

/-- A folder contains what has its scheme and starts with its segments, whatever the host. Of two `file` URLs
the paths agree with this, unless the second spells the names of the first in another way. URLs that are made of
paths always agree. -/
theorem contains_names (f : WorkspaceFolder) (uri : Url) :
    ((f.contains uri = true ↔ f.uri.scheme = uri.scheme ∧ segments f.root <+: segments uri.path) ∧
      ∀ authority, f.contains { uri with authority := authority } = f.contains uri) ∧
    (∀ p q, f.path? = some p → uri.filePath? = some q →
      (f.contains uri = true → p.names <+: q.names) ∧
      (¬ (f.contains uri = true ↔ p.names <+: q.names) ↔
        p.names <+: q.names ∧ ¬ segments f.root <+: segments uri.path)) ∧
    ∀ p q, WorkspaceFolder.ofPath? p = some f → Url.ofFilePath? q = some uri →
      ∃ p' q', f.path? = some p' ∧ uri.filePath? = some q' ∧ p'.names = keptNames p ∧ q'.names = keptNames q ∧
        (f.contains uri = true ↔ p'.names <+: q'.names) := by
  refine ⟨⟨contains_iff f uri, fun _ => rfl⟩, fun p q place place' => ?_, fun p q folder document => ?_⟩
  · have forward : f.contains uri = true → p.names <+: q.names :=
      fun inside => names_prefix_of_segments place place' ((contains_iff f uri).mp inside).2
    have file : f.uri.scheme = "file" := (Option.ite_none_right_eq_some.mp place).1
    have file' : uri.scheme = "file" := (Option.ite_none_right_eq_some.mp place').1
    have spelled : f.contains uri = true ↔ segments f.root <+: segments uri.path := by
      rw [contains_iff, file, file']
      simp only [true_and]
    refine ⟨forward, ?_⟩
    rw [← spelled]
    constructor
    · intro apart
      by_cases inside : f.contains uri = true
      · exact absurd (iff_of_true inside (forward inside)) apart
      · refine ⟨?_, inside⟩
        by_contra outside
        exact apart (iff_of_false inside outside)
    · rintro ⟨below, outside⟩ same
      exact outside (same.mpr below)
  · obtain ⟨u, directory, same⟩ := Option.map_eq_some_iff.mp folder
    obtain ⟨-, -, p', place, names⟩ := Url.names_of_ofDirectoryPath? directory
    obtain ⟨-, -, q', place', names'⟩ := Url.names_of_ofFilePath? document
    have agree := contains_of_paths folder document
    subst same
    exact ⟨p', q', place, place', names, names', by rw [names, names']; exact agree⟩

theorem contains_names_spelled :
    let web (host path : String) : Url := ⟨"http", some ⟨"", .domain host, none⟩, path, none, none⟩
    let file (path : String) : Url := ⟨"file", some ⟨"", .empty, none⟩, path, none, none⟩
    (⟨"ws", web "a" "/ws"⟩ : WorkspaceFolder).contains (web "b" "/ws/a.js") = true ∧
    (∃ p q, (⟨"ws", file "/w%73"⟩ : WorkspaceFolder).path? = some p ∧ (file "/ws/a.js").filePath? = some q ∧
      ¬ ((⟨"ws", file "/w%73"⟩ : WorkspaceFolder).contains (file "/ws/a.js") = true ↔ p.names <+: q.names)) ∧
    ∃ f u, WorkspaceFolder.ofPath? (.ofString "/w s") = some f ∧ Url.ofFilePath? (.ofString "/w s/a.js") = some u ∧
      f.contains u = true := by
  intro web file
  have place : (⟨"ws", file "/w%73"⟩ : WorkspaceFolder).path? = some (.ofString "/ws") := by decide +kernel
  have place' : (file "/ws/a.js").filePath? = some (.ofString "/ws/a.js") := by decide +kernel
  refine ⟨?_, ⟨_, _, place, place', ?_⟩, ⟨"w s", file "/w%20s/"⟩, file "/w%20s/a.js", ?_⟩
  · exact (contains_names ⟨"ws", web "a" "/ws"⟩ (web "b" "/ws/a.js")).1.1.mpr ⟨rfl, by decide +kernel⟩
  · exact ((contains_names _ _).2.1 _ _ place place').2.mpr ⟨by decide +kernel, by decide +kernel⟩
  · have made : WorkspaceFolder.ofPath? (.ofString "/w s") = some ⟨"w s", file "/w%20s/"⟩ := by decide +kernel
    have made' : Url.ofFilePath? (.ofString "/w s/a.js") = some (file "/w%20s/a.js") := by decide +kernel
    obtain ⟨p, q, -, -, names, names', agree⟩ := (contains_names _ _).2.2 _ _ made made'
    exact ⟨made, made', agree.mpr (by rw [names, names']; decide +kernel)⟩

end LinterClient.Workspace
