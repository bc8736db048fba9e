import Mathlib.Data.List.Pairwise
import Mathlib.Data.Set.Function
import Mathlib.Data.String.Basic
import LinterClient.Documents

/-!
Which documents are open and marked, through membership.

The open documents are filed by the texts of their URLs. So long as URLs are told apart by their texts,
there is one document for each URL.
-/

namespace LinterClient.Documents

variable {urls : Set Url} {docs : Documents} {d e : OpenDocument} {uri other : Url}

/-- Documents with URLs of some set, in order, and marks on them only. -/
structure Filed (urls : Set Url) (docs : Documents) : Prop where
  sorted : docs.opened.Pairwise (·.uri.text < ·.uri.text)
  known : ∀ d ∈ docs.opened, d.uri ∈ urls
  marked : ∀ uri ∈ docs.synced, ∃ d ∈ docs.opened, d.uri = uri

theorem filed_empty : Filed urls .empty := by
  constructor <;> simp [empty]

@[simp] theorem isSynced_iff : docs.isSynced uri = true ↔ uri ∈ docs.synced := List.contains_iff_mem

@[simp] theorem isSynced_eq_false_iff : docs.isSynced uri = false ↔ uri ∉ docs.synced := by
  rw [← Bool.not_eq_true, isSynced_iff]

theorem Filed.unique (filed : Filed urls docs) (opened : d ∈ docs.opened) (opened' : e ∈ docs.opened)
    (same : d.uri = e.uri) : d = e := by
  have symmetric : Std.Symm fun d e : OpenDocument => d.uri.text ≠ e.uri.text := ⟨fun _ _ => Ne.symm⟩
  have apart : docs.opened.Pairwise (·.uri.text ≠ ·.uri.text) := filed.sorted.imp fun less => less.ne
  by_contra different
  exact apart.forall opened opened' different (congrArg Url.text same)

theorem get?_isSome_iff : (docs.get? uri).isSome = true ↔ ∃ d ∈ docs.opened, d.uri = uri := by
  simp [get?]

/-- A document is found under its URL, and nothing else is. -/
theorem Filed.get?_eq_some_iff (filed : Filed urls docs) :
    docs.get? uri = some d ↔ d ∈ docs.opened ∧ d.uri = uri := by
  have holds {e : OpenDocument} (found : docs.get? uri = some e) : e ∈ docs.opened ∧ e.uri = uri := by
    have isSame := List.find?_some found
    exact ⟨List.mem_of_find?_eq_some found, of_decide_eq_true isSame⟩
  refine ⟨holds, fun ⟨opened, same⟩ => ?_⟩
  obtain ⟨e, found⟩ := Option.isSome_iff_exists.mp (get?_isSome_iff.mpr ⟨d, opened, same⟩)
  obtain ⟨opened', same'⟩ := holds found
  rw [found, filed.unique opened' opened (same'.trans same.symm)]

theorem Filed.known_of_marked (filed : Filed urls docs) (marked : uri ∈ docs.synced) : uri ∈ urls := by
  obtain ⟨d, opened, rfl⟩ := filed.marked uri marked
  exact filed.known d opened

section Insert

variable {l : List OpenDocument}

theorem mem_insertSorted (sorted : l.Pairwise (·.uri.text < ·.uri.text)) :
    e ∈ insertSorted d l ↔ e = d ∨ e ∈ l ∧ e.uri ≠ d.uri := by
  induction l with
  | nil => simp [insertSorted]
  | cons a rest ih =>
    obtain ⟨below, sorted⟩ := List.pairwise_cons.mp sorted
    rw [insertSorted]
    split
    · rename_i same
      have other : ∀ e ∈ rest, e.uri ≠ d.uri := fun e member equal =>
        (below e member).ne (congrArg Url.text (same.symm.trans equal.symm))
      grind
    · split
      · rename_i different less
        have other : ∀ e ∈ rest, e.uri ≠ d.uri := fun e member equal =>
          (less.trans (below e member)).ne (congrArg Url.text equal.symm)
        grind
      · simp only [List.mem_cons, ih sorted]
        grind

theorem sorted_insertSorted (apart : Set.InjOn Url.text urls) (known : ∀ e ∈ l, e.uri ∈ urls)
    (new : d.uri ∈ urls) (sorted : l.Pairwise (·.uri.text < ·.uri.text)) :
    (insertSorted d l).Pairwise (·.uri.text < ·.uri.text) := by
  induction l with
  | nil => simp [insertSorted]
  | cons a rest ih =>
    obtain ⟨below, tail⟩ := List.pairwise_cons.mp sorted
    rw [insertSorted]
    split
    · rename_i same
      rw [List.pairwise_cons]
      rw [← same] at below
      exact ⟨below, tail⟩
    · rename_i different
      split
      · rename_i less
        refine List.pairwise_cons.mpr ⟨fun e member => ?_, sorted⟩
        rcases List.mem_cons.mp member with rfl | later
        · exact less
        · exact less.trans (below e later)
      · rename_i notLess
        have above : a.uri.text < d.uri.text := by
          refine lt_of_le_of_ne (not_lt.mp notLess) fun same => different ?_
          exact (apart (known a (by simp)) new same).symm
        refine List.pairwise_cons.mpr ⟨fun e member => ?_, ih (fun e old => known e (by simp [old])) tail⟩
        rcases (mem_insertSorted tail).mp member with rfl | ⟨old, -⟩
        · exact above
        · exact below e old

end Insert

theorem Filed.mem_insert (filed : Filed urls docs) :
    e ∈ (docs.insert d).opened ↔ e = d ∨ e ∈ docs.opened ∧ e.uri ≠ d.uri :=
  mem_insertSorted filed.sorted

theorem Filed.insert (filed : Filed urls docs) (apart : Set.InjOn Url.text urls) (new : d.uri ∈ urls) :
    Filed urls (docs.insert d) where
  sorted := sorted_insertSorted apart filed.known new filed.sorted
  known e member := by
    rcases filed.mem_insert.mp member with rfl | ⟨old, -⟩
    · exact new
    · exact filed.known e old
  marked uri mark := by
    obtain ⟨e, old, rfl⟩ := filed.marked uri mark
    by_cases same : e.uri = d.uri
    · exact ⟨d, filed.mem_insert.mpr (.inl rfl), same.symm⟩
    · exact ⟨e, filed.mem_insert.mpr (.inr ⟨old, same⟩), rfl⟩

theorem Filed.mark (filed : Filed urls docs) (opened : d ∈ docs.opened) (unmarked : d.uri ∉ docs.synced) :
    docs.mark d.uri = { docs with synced := d.uri :: docs.synced } ∧ Filed urls (docs.mark d.uri) := by
  have can : docs.canMark d.uri = true := by
    simpa [canMark, get?_isSome_iff, unmarked] using ⟨d, opened, rfl⟩
  rw [Documents.mark, if_pos can]
  refine ⟨rfl, filed.sorted, filed.known, fun uri member => ?_⟩
  rcases List.mem_cons.mp member with rfl | old
  · exact ⟨d, opened, rfl⟩
  · exact filed.marked uri old

theorem mem_unmark : other ∈ (docs.unmark uri).synced ↔ other ∈ docs.synced ∧ other ≠ uri := by
  simp [unmark]

theorem unmark_of_notMem (unmarked : uri ∉ docs.synced) : docs.unmark uri = docs := by
  have same : docs.synced.filter (· ≠ uri) = docs.synced :=
    List.filter_eq_self.mpr fun other member => by
      simpa using fun equal : other = uri => unmarked (equal ▸ member)
  rw [unmark, same]

/-- A mark that is taken back was never there. -/
theorem Filed.unmark_mark (filed : Filed urls docs) (opened : d ∈ docs.opened)
    (unmarked : d.uri ∉ docs.synced) : (docs.mark d.uri).unmark d.uri = docs := by
  rw [(filed.mark opened unmarked).1]
  have same : { docs with synced := d.uri :: docs.synced }.unmark d.uri = docs.unmark d.uri := by
    simp [unmark]
  rw [same, unmark_of_notMem unmarked]

theorem Filed.unmark (filed : Filed urls docs) : Filed urls (docs.unmark uri) where
  sorted := filed.sorted
  known := filed.known
  marked other member := filed.marked other (mem_unmark.mp member).1

theorem mem_close : d ∈ (docs.close uri).opened ↔ d ∈ docs.opened ∧ d.uri ≠ uri := by
  simp [close]

theorem synced_close : (docs.close uri).synced = (docs.unmark uri).synced := rfl

theorem Filed.close (filed : Filed urls docs) : Filed urls (docs.close uri) where
  sorted := filed.sorted.sublist List.filter_sublist
  known d member := filed.known d (mem_close.mp member).1
  marked other member := by
    obtain ⟨old, different⟩ := mem_unmark.mp member
    obtain ⟨d, opened, rfl⟩ := filed.marked other old
    exact ⟨d, mem_close.mpr ⟨opened, different⟩, rfl⟩

theorem Filed.clearMarks (filed : Filed urls docs) : Filed urls docs.clearMarks :=
  ⟨filed.sorted, filed.known, nofun⟩

end LinterClient.Documents
