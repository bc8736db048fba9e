import Mathlib.Data.List.Induction
import Mathlib.Data.List.Nodup
import LinterClient.Workspace

/-!
The folder that a document lies in.

A folder contains the documents whose path starts with the segments of its own. So the folders around one
document form a chain, and the longest path among them is that of the innermost folder.
-/

namespace LinterClient.Workspace

/-! ## Paths and their segments -/

theorem intercalate_append {α : Type} (separator : List α) {front back : List (List α)} (filled : front ≠ [])
    (more : back ≠ []) :
    separator.intercalate (front ++ back) =
      separator.intercalate front ++ separator ++ separator.intercalate back := by
  induction front with
  | nil => exact absurd rfl filled
  | cons piece front ih =>
    cases front with
    | nil => simp [List.intercalate_cons_of_ne_nil more]
    | cons next front =>
      have later := ih (by simp)
      rw [List.cons_append, List.intercalate_cons_of_ne_nil (by simp), later, List.intercalate_cons_cons]
      simp only [List.append_assoc]

/-- The segments of a text start those of another iff the other is the text or continues it after a slash. -/
theorem splitOn_prefix_iff (a b : List Char) :
    a.splitOn '/' <+: b.splitOn '/' ↔ b = a ∨ a ++ ['/'] <+: b := by
  constructor
  · rintro ⟨others, split⟩
    have whole (s : List Char) : ['/'].intercalate (s.splitOn '/') = s := List.intercalate_splitOn '/'
    rw [← whole b, ← split]
    by_cases last : others = []
    · left
      rw [last, List.append_nil, whole]
    · right
      have filled : a.splitOn '/' ≠ [] := List.splitOnP_ne_nil _ _
      rw [intercalate_append _ filled last, whole]
      exact List.prefix_append _ _
  · rintro (rfl | ⟨rest, rfl⟩)
    · exact List.prefix_rfl
    · have joined : (a ++ '/' :: rest).splitOn '/' = a.splitOn '/' ++ rest.splitOn '/' :=
        List.splitOnP_append_cons _ _ (by simp)
      rw [List.append_assoc, List.singleton_append, joined]
      exact List.prefix_append _ _

def segments (path : String) : List (List Char) :=
  path.toList.splitOn '/'

theorem segments_prefix_iff (a b : String) : segments a <+: segments b ↔ b = a ∨ (a ++ "/").toList <+: b.toList := by
  rw [segments, segments, splitOn_prefix_iff, String.toList_inj, String.toList_append]
  rfl

theorem segments_inj {a b : String} (same : segments a = segments b) : a = b := by
  have whole (s : List Char) : ['/'].intercalate (s.splitOn '/') = s := List.intercalate_splitOn '/'
  rw [← String.toList_inj, ← whole a.toList, ← whole b.toList]
  exact congrArg _ same

theorem utf8ByteSize_lt_of_prefix {a b : String} (inside : segments a <+: segments b) (other : a ≠ b) :
    a.utf8ByteSize < b.utf8ByteSize := by
  rcases (segments_prefix_iff a b).mp inside with same | ⟨rest, continues⟩
  · exact absurd same.symm other
  · have whole : b = a ++ "/" ++ String.ofList rest := by
      rw [← String.toList_inj, String.toList_append, String.toList_ofList, continues]
    have slash : "/".utf8ByteSize = 1 := rfl
    rw [whole, String.utf8ByteSize_append, String.utf8ByteSize_append]
    omega

/-- A folder contains what has its scheme and starts with its segments. -/
theorem contains_iff (f : WorkspaceFolder) (uri : Url) :
    f.contains uri = true ↔ f.uri.scheme = uri.scheme ∧ segments f.root <+: segments uri.path := by
  rw [segments_prefix_iff]
  simp [WorkspaceFolder.contains]

/-- Of two folders around one document, one lies in the other. -/
theorem segments_chain {f g : WorkspaceFolder} {uri : Url} (around : f.contains uri = true)
    (around' : g.contains uri = true) :
    segments f.root <+: segments g.root ∨ segments g.root <+: segments f.root :=
  List.prefix_or_prefix_of_prefix ((contains_iff f uri).mp around).2 ((contains_iff g uri).mp around').2

theorem segments_prefix_of_le {f g : WorkspaceFolder} {uri : Url} (around : f.contains uri = true)
    (around' : g.contains uri = true) (longest : g.root.utf8ByteSize ≤ f.root.utf8ByteSize) :
    segments g.root <+: segments f.root := by
  rcases segments_chain around around' with outside | inside
  · by_cases same : f.root = g.root
    · exact same ▸ List.prefix_rfl
    · have shorter := utf8ByteSize_lt_of_prefix outside same
      omega
  · exact inside

/-! ## The scan -/

theorem innermost_scan (folders : List WorkspaceFolder) :
    (folders.foldl innermost none = none ↔ folders = []) ∧
      ∀ f, folders.foldl innermost none = some f →
        f ∈ folders ∧ ∀ g ∈ folders, g.root.utf8ByteSize ≤ f.root.utf8ByteSize := by
  induction folders using List.reverseRecOn with
  | nil => simp
  | append_singleton folders last ih =>
    rw [List.foldl_append, List.foldl_cons, List.foldl_nil]
    cases scanned : folders.foldl innermost none with
    | none =>
      have empty := ih.1.mp scanned
      subst empty
      simp [innermost]
    | some best =>
      have member := (ih.2 best scanned).1
      have longest := (ih.2 best scanned).2
      simp only [innermost]
      split
      · rename_i longer
        refine ⟨by simp, fun f found => ?_⟩
        cases found
        refine ⟨by simp, fun g inside => ?_⟩
        rcases List.mem_append.mp inside with inside | inside
        · exact Nat.le_trans (longest g inside) longer
        · cases List.mem_singleton.mp inside
          exact Nat.le_refl _
      · rename_i shorter
        refine ⟨by simp, fun f found => ?_⟩
        cases found
        refine ⟨List.mem_append_left _ member, fun g inside => ?_⟩
        rcases List.mem_append.mp inside with inside | inside
        · exact longest g inside
        · rw [List.mem_singleton.mp inside]
          omega

/-- The folders that contain a document. -/
def around (folders : List WorkspaceFolder) (uri : Url) : List WorkspaceFolder :=
  folders.filter (·.contains uri)

theorem mem_around {folders : List WorkspaceFolder} {uri : Url} {f : WorkspaceFolder} :
    f ∈ around folders uri ↔ f ∈ folders ∧ f.contains uri = true :=
  List.mem_filter

theorem folderFor?_some {w : Workspace} {uri : Url} {f : WorkspaceFolder} (found : w.folderFor? uri = some f) :
    f ∈ around w.folders uri ∧ ∀ g ∈ around w.folders uri, segments g.root <+: segments f.root := by
  have scanned := (innermost_scan (around w.folders uri)).2 f found
  refine ⟨scanned.1, fun g member => ?_⟩
  exact segments_prefix_of_le (mem_around.mp scanned.1).2 (mem_around.mp member).2 (scanned.2 g member)

theorem folderFor?_none_iff (w : Workspace) (uri : Url) :
    w.folderFor? uri = none ↔ ∀ f ∈ w.folders, f.contains uri = false := by
  apply (innermost_scan (around w.folders uri)).1.trans
  rw [around, List.filter_eq_nil_iff]
  simp only [Bool.not_eq_true]

theorem folderFor?_perm {w w' : Workspace} {uri : Url} (reordered : w.folders.Perm w'.folders)
    (distinct : ((around w.folders uri).map (·.root)).Nodup) : w'.folderFor? uri = w.folderFor? uri := by
  have same : ∀ f, f ∈ w.folders ↔ f ∈ w'.folders := fun f => reordered.mem_iff
  cases found : w.folderFor? uri with
  | none =>
    rw [folderFor?_none_iff] at found ⊢
    exact fun f member => found f ((same f).mpr member)
  | some f =>
    cases found' : w'.folderFor? uri with
    | none =>
      rw [folderFor?_none_iff] at found'
      have inside := mem_around.mp (folderFor?_some found).1
      rw [found' f ((same f).mp inside.1)] at inside
      cases inside.2
    | some f' =>
      have first := folderFor?_some found
      have second := folderFor?_some found'
      have member' := mem_around.mp second.1
      have inside : f' ∈ around w.folders uri := mem_around.mpr ⟨(same f').mpr member'.1, member'.2⟩
      have member := mem_around.mp first.1
      have inside' : f ∈ around w'.folders uri := mem_around.mpr ⟨(same f).mp member.1, member.2⟩
      have outer := first.2 f' inside
      have inner := second.2 f inside'
      have equal : segments f'.root = segments f.root :=
        outer.eq_of_length (Nat.le_antisymm outer.length_le inner.length_le)
      rw [List.inj_on_of_nodup_map distinct inside first.1 (segments_inj equal)]

/-- The folder of a document is one that contains it, if there is one, and all others that contain it lie
around that one or have its path. If no two of them have the same path, their order does not matter. -/
theorem folderFor?_innermost (w : Workspace) (uri : Url) :
    (w.folderFor? uri = none ↔ ∀ f ∈ w.folders, f.contains uri = false) ∧
    (∀ f, w.folderFor? uri = some f → f ∈ w.folders ∧ f.contains uri = true ∧
      ∀ g ∈ w.folders, g.contains uri = true → segments g.root <+: segments f.root) ∧
    ∀ w' : Workspace, w.folders.Perm w'.folders → ((around w.folders uri).map (·.root)).Nodup →
      w'.folderFor? uri = w.folderFor? uri := by
  refine ⟨folderFor?_none_iff w uri, fun f found => ?_, fun w' => folderFor?_perm⟩
  have inside := folderFor?_some found
  have member := mem_around.mp inside.1
  exact ⟨member.1, member.2, fun g other contains => inside.2 g (mem_around.mpr ⟨other, contains⟩)⟩

theorem folderFor?_innermost_nested :
    let folder (path : String) : WorkspaceFolder := ⟨"ws", ⟨"file", some ⟨"", .empty, none⟩, path, none, none⟩⟩
    let uri : Url := ⟨"file", some ⟨"", .empty, none⟩, "/ws/app/a.js", none, none⟩
    let w : Workspace := ⟨[folder "/ws/app//", folder "/", folder "/ws/ap"], none⟩
    let reversed : Workspace := ⟨[folder "/ws/ap", folder "/", folder "/ws/app//"], none⟩
    w.folderFor? uri = some (folder "/ws/app//") ∧
      segments (folder "/").root <+: segments (folder "/ws/app//").root ∧
      w.folders.Perm reversed.folders ∧ ((around w.folders uri).map (·.root)).Nodup ∧
      reversed.folderFor? uri = w.folderFor? uri := by
  intro folder uri w reversed
  have found : w.folderFor? uri = some (folder "/ws/app//") := by decide
  have reordered : w.folders.Perm reversed.folders := (List.reverse_perm w.folders).symm
  have distinct : ((around w.folders uri).map (·.root)).Nodup := by decide
  have innermost := (folderFor?_innermost w uri).2.1 (folder "/ws/app//") found
  have outer := innermost.2.2 (folder "/") (by simp [w]) (by decide)
  exact ⟨found, outer, reordered, distinct, (folderFor?_innermost w uri).2.2 reversed reordered distinct⟩

end LinterClient.Workspace
