import Mathlib.Data.String.Basic
import LinterClient.Proofs.Json.Members

/-!
Objects as maps: members in strictly growing order of their names.

Members in this order are known by what `get?` finds. Setting a member and sorting make it, and sorting
leaves it alone.
-/

namespace LinterClient.Json

namespace Members

def Ordered (m : Members) : Prop :=
  m.Pairwise fun a b => a.1 < b.1

theorem get?_none_of_lt {m : Members} {key : String} (below : ∀ p ∈ m, key < p.1) : get? m key = none := by
  induction m with
  | nil => rfl
  | cons head rest ih =>
    obtain ⟨name, value⟩ := head
    have first : key < name := below (name, value) List.mem_cons_self
    rw [get?_cons, if_neg first.ne]
    exact ih fun p member => below p (List.mem_cons_of_mem _ member)

theorem Ordered.ext {m n : Members} (left : m.Ordered) (right : n.Ordered)
    (same : ∀ key, get? m key = get? n key) : m = n := by
  induction m generalizing n with
  | nil =>
    cases n with
    | nil => rfl
    | cons head rest =>
      obtain ⟨name, value⟩ := head
      simpa [get?_cons] using same name
  | cons head rest ih =>
    obtain ⟨name, value⟩ := head
    obtain ⟨below, tail⟩ := List.pairwise_cons.mp left
    cases n with
    | nil => simpa [get?_cons] using same name
    | cons head' rest' =>
      obtain ⟨name', value'⟩ := head'
      obtain ⟨below', tail'⟩ := List.pairwise_cons.mp right
      -- the smaller of the two first names would be missing on the other side
      have first : name = name' := by
        rcases lt_trichotomy name name' with less | equal | less
        · have gone : get? ((name', value') :: rest') name = none :=
            get?_none_of_lt (List.forall_mem_cons.mpr ⟨less, fun p member => less.trans (below' p member)⟩)
          rw [← same, get?_cons, if_pos rfl] at gone
          cases gone
        · exact equal
        · have gone : get? ((name, value) :: rest) name' = none :=
            get?_none_of_lt (List.forall_mem_cons.mpr ⟨less, fun p member => less.trans (below p member)⟩)
          rw [same, get?_cons, if_pos rfl] at gone
          cases gone
      subst first
      have values : value = value' := by simpa [get?_cons] using same name
      subst values
      congr 1
      refine ih tail tail' fun key => ?_
      by_cases here : key = name
      · subst here
        rw [get?_none_of_lt below, get?_none_of_lt below']
      · simpa [get?_cons, here] using same key

theorem mem_insert {name : String} {value : Json} {m : Members} {p : String × Json}
    (member : p ∈ insert name value m) : p = (name, value) ∨ p ∈ m := by
  induction m with
  | nil => exact .inl (List.mem_singleton.mp member)
  | cons head rest ih =>
    obtain ⟨k, v⟩ := head
    simp only [insert] at member
    split at member
    · rcases List.mem_cons.mp member with rfl | old
      · exact .inl rfl
      · exact .inr (List.mem_cons_of_mem _ old)
    · split at member
      · rcases List.mem_cons.mp member with rfl | old
        · exact .inl rfl
        · exact .inr old
      · rcases List.mem_cons.mp member with rfl | tail
        · exact .inr List.mem_cons_self
        · exact (ih tail).imp_right (List.mem_cons_of_mem _)

theorem Ordered.insert {m : Members} (ordered : m.Ordered) (name : String) (value : Json) :
    (Members.insert name value m).Ordered := by
  induction m with
  | nil => exact List.pairwise_singleton _ _
  | cons head rest ih =>
    obtain ⟨k, v⟩ := head
    obtain ⟨below, tail⟩ := List.pairwise_cons.mp ordered
    simp only [Members.insert]
    split
    · rename_i same
      exact List.pairwise_cons.mpr ⟨same ▸ below, tail⟩
    · rename_i different
      split
      · rename_i less
        refine List.pairwise_cons.mpr ⟨?_, ordered⟩
        exact List.forall_mem_cons.mpr ⟨less, fun p member => less.trans (below p member)⟩
      · rename_i notLess
        refine List.pairwise_cons.mpr ⟨fun p member => ?_, ih tail⟩
        rcases mem_insert member with named | old
        · rw [named]
          exact lt_of_le_of_ne (not_lt.mp notLess) (Ne.symm different)
        · exact below p old

theorem mem_foldl_insert {m acc : Members} {p : String × Json}
    (member : p ∈ m.foldl (fun acc p => insert p.1 p.2 acc) acc) : p ∈ acc ∨ p ∈ m := by
  induction m generalizing acc with
  | nil => exact .inl member
  | cons head rest ih =>
    rcases ih member with added | later
    · rcases mem_insert added with rfl | old
      · exact .inr List.mem_cons_self
      · exact .inl old
    · exact .inr (List.mem_cons_of_mem _ later)

theorem mem_sorted {m : Members} {p : String × Json} (member : p ∈ m.sorted) : p ∈ m :=
  (mem_foldl_insert member).resolve_left List.not_mem_nil

theorem mem_names_sorted (m : Members) (key : String) :
    key ∈ m.sorted.map (·.1) ↔ key ∈ m.map (·.1) := by
  rw [← lookup_isSome_iff]
  change (get? m.sorted key).isSome ↔ _
  rw [get?_sorted, get?, lookup_isSome_iff, List.map_reverse, List.mem_reverse]

theorem ordered_sorted (m : Members) : m.sorted.Ordered := by
  have build (acc : Members) (ordered : acc.Ordered) :
      (m.foldl (fun acc p => Members.insert p.1 p.2 acc) acc).Ordered := by
    induction m generalizing acc with
    | nil => exact ordered
    | cons head rest ih => exact ih _ (ordered.insert head.1 head.2)
  exact build [] .nil

theorem Ordered.erase {m : Members} (ordered : m.Ordered) (name : String) : (m.erase name).Ordered :=
  ordered.sublist List.filter_sublist

theorem Ordered.nodup {m : Members} (ordered : m.Ordered) : (m.map (·.1)).Nodup :=
  List.pairwise_map.mpr (ordered.imp ne_of_lt)

/-- Of distinct names it does not matter which counts. -/
theorem get?_sorted_of_nodup {m : Members} (distinct : (m.map (·.1)).Nodup) (key : String) :
    get? m.sorted key = get? m key := by
  rw [get?_sorted]
  induction m with
  | nil => rfl
  | cons head rest ih =>
    obtain ⟨name, value⟩ := head
    obtain ⟨fresh, tail⟩ := List.nodup_cons.mp distinct
    rw [List.reverse_cons, get?, List.lookup_append, lookup_cons_if, List.lookup_nil, get?_cons]
    by_cases here : key = name
    · subst here
      have gone : rest.reverse.lookup key = none := by
        refine List.lookup_eq_none_iff.mpr fun p member => ?_
        have named := List.mem_map_of_mem (f := (·.1)) (List.mem_reverse.mp member)
        have different : key ≠ p.1 := by
          rintro rfl
          exact fresh named
        simpa using different
      rw [gone, if_pos rfl, if_pos rfl]
      rfl
    · rw [if_neg here, if_neg here, ← ih tail]
      exact Option.or_none

theorem Ordered.sorted_eq {m : Members} (ordered : m.Ordered) : m.sorted = m :=
  (ordered_sorted m).ext ordered (get?_sorted_of_nodup ordered.nodup)

theorem sorted_eq_nil_iff (m : Members) : m.sorted = [] ↔ m = [] := by
  constructor
  · intro empty
    cases reversed : m.reverse with
    | nil => exact List.reverse_eq_nil_iff.mp reversed
    | cons head rest =>
      have found := get?_sorted m head.1
      rw [empty, reversed, get?_cons, if_pos rfl] at found
      cases found
  · rintro rfl
    rfl

end Members

theorem sortedItems_eq_map (items : List Json) : sortedItems items = items.map sorted := by
  induction items with
  | nil => rfl
  | cons v rest ih => rw [sortedItems, ih, List.map_cons]

theorem sortedMembers_eq_map (m : Members) : sortedMembers m = m.map fun p => (p.1, p.2.sorted) := by
  induction m with
  | nil => rfl
  | cons head rest ih =>
    obtain ⟨name, value⟩ := head
    rw [sortedMembers, ih, List.map_cons]

theorem sorted_arr_iff (items : List Json) :
    (Json.arr items).sorted = .arr items ↔ ∀ v ∈ items, v.sorted = v := by
  rw [sorted, Json.arr.injEq, sortedItems_eq_map]
  conv_lhs => rhs; rw [← List.map_id items]
  exact List.map_inj_left

/-- A sorted object has its members in order, and each of them is sorted. -/
theorem ordered_of_sorted_obj {m : Members} (same : (Json.obj m).sorted = .obj m) :
    m.Ordered ∧ ∀ p ∈ m, p.2.sorted = p.2 := by
  rw [sorted, Json.obj.injEq, sortedMembers_eq_map] at same
  have ordered : m.Ordered := same ▸ Members.ordered_sorted _
  have mapped : Members.Ordered (m.map fun p => (p.1, p.2.sorted)) := List.pairwise_map.mpr ordered
  rw [mapped.sorted_eq] at same
  refine ⟨ordered, fun p member => ?_⟩
  have each := List.map_inj_left.mp (same.trans (List.map_id m).symm) p member
  exact congrArg Prod.snd each

theorem sorted_obj {m : Members} (ordered : m.Ordered) (each : ∀ p ∈ m, p.2.sorted = p.2) :
    (Json.obj m).sorted = .obj m := by
  have same : m.map (fun p => (p.1, p.2.sorted)) = m := by
    refine (List.map_congr_left fun p member => ?_).trans (List.map_id m)
    rw [each p member]
    rfl
  rw [sorted, sortedMembers_eq_map, same, ordered.sorted_eq]

end LinterClient.Json
