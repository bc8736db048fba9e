import LinterClient.Proofs.Json.Order
import LinterClient.Proofs.Store.Memory

/-!
The store in memory as a map from keys to values, in tiers.

A tier is a map of maps: objects have their members in order, at any depth. Writes keep it so, and then a
removal that finds nothing leaves the tier as it is.
-/

namespace LinterClient

open Json (Members)

namespace KeyPath

variable {root : Members} {path : List String}

theorem child_sorted (sorted : (Json.obj root).sorted = .obj root) (segment : String) :
    (Json.obj (child root segment)).sorted = .obj (child root segment) := by
  rw [child]
  split
  · rename_i next found
    exact (Json.ordered_of_sorted_obj sorted).2 _ (Members.mem_of_get? found)
  · rfl

theorem insert_sorted {value : Json} (sorted : (Json.obj root).sorted = .obj root)
    (own : value.sorted = value) (segment : String) :
    (Json.obj (Members.insert segment value root)).sorted = .obj (Members.insert segment value root) := by
  obtain ⟨ordered, each⟩ := Json.ordered_of_sorted_obj sorted
  refine Json.sorted_obj (ordered.insert segment value) fun p member => ?_
  rcases Members.mem_insert member with rfl | old
  · exact own
  · exact each p old

theorem assign_sorted {value : Json} (sorted : (Json.obj root).sorted = .obj root)
    (own : value.sorted = value) :
    (Json.obj (assign root value path)).sorted = .obj (assign root value path) := by
  induction path generalizing root with
  | nil => exact sorted
  | cons segment path ih =>
    by_cases last : path = []
    · subst last
      exact insert_sorted sorted own segment
    · rw [assign_cons root value segment last]
      exact insert_sorted sorted (ih (child_sorted sorted segment)) segment

theorem remove_sorted (sorted : (Json.obj root).sorted = .obj root) :
    (Json.obj (remove root path)).sorted = .obj (remove root path) := by
  fun_induction remove root path with
  | case1 => exact sorted
  | case2 root last =>
    obtain ⟨ordered, each⟩ := Json.ordered_of_sorted_obj sorted
    exact Json.sorted_obj (ordered.erase last) fun p member => each p (List.mem_filter.mp member).1
  | case3 root segment path _ next found ih =>
    have inside := (Json.ordered_of_sorted_obj sorted).2 _ (Members.mem_of_get? found)
    exact insert_sorted sorted (ih inside) segment
  | case4 => exact sorted

/-- Nothing changes where nothing is to be removed. -/
theorem remove_absent (sorted : (Json.obj root).sorted = .obj root) (absent : lookup root path = none) :
    remove root path = root := by
  fun_induction remove root path with
  | case1 => rfl
  | case2 root last =>
    refine List.filter_eq_self.mpr fun p member => ?_
    have named := (lookup_isSome_iff root p.1).mpr (List.mem_map_of_mem member)
    simp only [ne_eq, decide_eq_true_eq]
    intro here
    rw [here] at named
    exact absurd (named.symm.trans (congrArg Option.isSome absent)) (by simp)
  | case3 root segment path nonempty next found ih =>
    obtain ⟨ordered, each⟩ := Json.ordered_of_sorted_obj sorted
    have below : lookup next path = none := by
      rw [lookup_cons root segment nonempty, child, found] at absent
      exact absent
    rw [ih (each _ (Members.mem_of_get? found)) below]
    refine (ordered.insert segment _).ext ordered fun key => ?_
    rw [Members.get?_insert]
    split
    · rename_i here
      rw [here, found]
    · rfl
  | case4 => rfl

/-- Two keys that differ only in empty segments. -/
def DifferInEmpty (key other : String) : Prop :=
  ∃ pieces pieces' : List String, key = ".".intercalate pieces ∧ other = ".".intercalate pieces' ∧
    (∀ p ∈ pieces ++ pieces', '.' ∉ p.toList) ∧ pieces.filter (· ≠ "") = pieces'.filter (· ≠ "")

theorem DifferInEmpty.segments_eq {key other : String} (differ : DifferInEmpty key other) :
    segments key = segments other := by
  obtain ⟨pieces, pieces', rfl, rfl, plain, same⟩ := differ
  rw [segments_intercalate fun p member => plain p (List.mem_append_left _ member),
    segments_intercalate fun p member => plain p (List.mem_append_right _ member), same]

end KeyPath

namespace MemoryStore

/-- All tiers have their members in order, at any depth. -/
def Sorted (s : MemoryStore) : Prop :=
  ∀ resource t, (Json.obj (s.tier resource t)).sorted = .obj (s.tier resource t)

theorem update_tier {s s' : MemoryStore} {w : SettingWrite} (updated : s.update w = .ok s')
    (resource : Option Url) (t : Tier) :
    s'.tier resource t =
      if t = w.tier ∧ (t = .folder → s.folderKey? resource = s.folderKey? w.resource) then
        KeyPath.update (s.tier resource t) w.value (KeyPath.segments w.key)
      else s.tier resource t := by
  rw [tier_setTier updated]
  split
  · rename_i here
    obtain ⟨rfl, folder⟩ := here
    have content : s.tier w.resource w.tier = s.tier resource w.tier := by
      cases tier : w.tier with
      | global => rfl
      | workspace => rfl
      | folder => simp only [MemoryStore.tier, folder tier]
    rw [content]
  · rfl

theorem Sorted.update {s s' : MemoryStore} {w : SettingWrite} (sorted : s.Sorted)
    (own : ∀ v, w.value = some v → v.sorted = v) (updated : s.update w = .ok s') : s'.Sorted := by
  intro resource t
  rw [update_tier updated]
  split
  · cases given : w.value with
    | none => exact KeyPath.remove_sorted (sorted resource t)
    | some v => exact KeyPath.assign_sorted (sorted resource t) (own v given)
  · exact sorted resource t

/-- What a write that succeeds leaves: the value at its key and what is inside it, or nothing there, and
all else as it was. -/
structure Written (s : MemoryStore) (w : SettingWrite) (s' : MemoryStore) : Prop where
  found (v : Json) : w.value = some v → (Store.inspect s' w.key w.resource).get w.tier = some v
  inside (v : Json) (key : String) (rest : List String) : w.value = some v → rest ≠ [] →
    KeyPath.segments key = KeyPath.segments w.key ++ rest →
      (Store.inspect s' key w.resource).get w.tier = KeyPath.lookup (KeyPath.membersOf (some v)) rest
  removed (key : String) : w.value = none → KeyPath.segments w.key <+: KeyPath.segments key →
    (Store.inspect s' key w.resource).get w.tier = none
  idle : w.value = none → (Store.inspect s w.key w.resource).get w.tier = none → s.Sorted →
    ∀ resource t, s'.tier resource t = s.tier resource t
  elsewhere (key : String) (resource : Option Url) (t : Tier) : ¬ w.Reaches s.workspace key resource t →
    (Store.inspect s' key resource).get t = (Store.inspect s key resource).get t
  workspace : s'.workspace = s.workspace

theorem written_of_update {s s' : MemoryStore} {w : SettingWrite} (filled : KeyPath.segments w.key ≠ [])
    (updated : s.update w = .ok s') : Written s w s' := by
  have write : Store.write s w = (.ok (), s') := by simp only [Store.write, updated]
  have content : s'.tier w.resource w.tier =
      KeyPath.update (s.tier w.resource w.tier) w.value (KeyPath.segments w.key) := by
    rw [update_tier updated, if_pos ⟨rfl, fun _ => rfl⟩]
  have found (v : Json) (given : w.value = some v) :
      KeyPath.lookup (s'.tier w.resource w.tier) (KeyPath.segments w.key) = some v := by
    rw [content, given]
    exact KeyPath.lookup_assign_self _ v filled
  refine ⟨fun v given => ?_, fun v key rest given more same => ?_, fun key gone begins => ?_,
    fun gone absent sorted resource t => ?_, fun key resource t away => ?_, workspace_setTier updated⟩
  · rw [inspect_get]
    exact found v given
  · rw [inspect_get, same, KeyPath.lookup_append _ filled more, found v given]
  · rw [inspect_get, content, gone]
    exact KeyPath.lookup_remove_of_prefix _ filled begins
  · rw [inspect_get] at absent
    have kept : KeyPath.update (s.tier w.resource w.tier) w.value (KeyPath.segments w.key) =
        s.tier w.resource w.tier := by
      rw [gone]
      exact KeyPath.remove_absent (sorted w.resource w.tier) absent
    rw [← content] at kept
    rw [tier_setTier updated resource t]
    split
    · rename_i here
      obtain ⟨rfl, folder⟩ := here
      rw [← content, kept]
      cases tier : w.tier with
      | global => rfl
      | workspace => rfl
      | folder => simp only [MemoryStore.tier, folder tier]
    · rfl
  · have away' := LawfulStore.inspect_elsewhere s w key resource t away
    rw [write] at away'
    exact away'

/-- The store in memory is a lawful map from keys to values in each tier. A write succeeds if its tier can
be written, and one that does not changes nothing. Keys that differ only in empty segments are one key. -/
theorem write_lawful (s : MemoryStore) (w : SettingWrite) (filled : KeyPath.segments w.key ≠ []) :
    ((Store.write s w).1 = .ok () ↔ s.Accepts w.resource w.tier) ∧
    ((Store.write s w).1 = .ok () → Written s w (Store.write s w).2) ∧
    (∀ e, (Store.write s w).1 = .error e → (Store.write s w).2 = s) ∧
    (s.Sorted → (∀ v, w.value = some v → v.sorted = v) → (Store.write s w).2.Sorted) ∧
    ∀ key, KeyPath.DifferInEmpty w.key key →
      (∀ resource, Store.inspect s key resource = Store.inspect s w.key resource) ∧
        Store.write s { w with key } = Store.write s w := by
  refine ⟨write_ok_iff s w, ?_, ?_, ?_, fun key differ => ⟨fun resource => ?_, ?_⟩⟩
  · obtain ⟨_, e, failed⟩ | ⟨_, s', updated, ok⟩ := write_cases s w
    · rw [failed]
      rintro ⟨⟩
    · rw [ok]
      exact fun _ => written_of_update filled updated
  · obtain ⟨_, e, failed⟩ | ⟨_, s', updated, ok⟩ := write_cases s w
    · rw [failed]
      exact fun _ _ => rfl
    · rw [ok]
      rintro e ⟨⟩
  · intro sorted own
    obtain ⟨_, e, failed⟩ | ⟨_, s', updated, ok⟩ := write_cases s w
    · rw [failed]
      exact sorted
    · rw [ok]
      exact sorted.update own updated
  · refine Scoped.ext_get fun t => ?_
    rw [inspect_get, inspect_get, differ.segments_eq]
  · simp only [Store.write, update, differ.segments_eq]

/-- A language's settings are removed from one of two folders, where there are none. -/
theorem write_lawful_absent :
    let folder : WorkspaceFolder := ⟨"a", ⟨"file", some ⟨"", .empty, none⟩, "/a", none, none⟩⟩
    let document : Url := ⟨"file", some ⟨"", .empty, none⟩, "/a/index.js", none, none⟩
    let s : MemoryStore := ⟨⟨[folder], none⟩, [("[vue]", .obj [("editor", .obj [])])], [],
      [("file:///b", [("[vue]", .obj [("editor", .bool true)])])]⟩
    let w : SettingWrite := ⟨"[vue]..editor", none, .folder, some document⟩
    (Store.write s w).1 = .ok () ∧ (Store.write s w).2 ≠ s ∧
      (∀ resource t, (Store.write s w).2.tier resource t = s.tier resource t) ∧
      Store.write s { w with key := "[vue].editor" } = Store.write s w := by
  intro folder document s w
  have filled : KeyPath.segments w.key ≠ [] := by decide +kernel
  obtain ⟨succeeds, written, -, -, same⟩ := write_lawful s w filled
  have done : (Store.write s w).1 = .ok () := succeeds.mpr (by simp only [Accepts]; decide +kernel)
  have sorted : s.Sorted := by
    intro resource t
    cases t with
    | global => rfl
    | workspace => rfl
    | folder =>
      rw [tier]
      cases s.folderKey? resource with
      | none => rfl
      | some k =>
        rw [Option.bind_some, lookup_cons_if]
        split <;> rfl
  refine ⟨done, by decide +kernel, (written done).idle rfl (by decide +kernel) sorted, (same _ ?_).2⟩
  exact ⟨["[vue]", "", "editor"], ["[vue]", "editor"], by decide +kernel, by decide +kernel,
    by decide +kernel, by decide +kernel⟩

end MemoryStore

end LinterClient
