import LinterClient.KeyPath
import LinterClient.Proofs.Json.Members
import LinterClient.Settings.Keys

/-!
Paths that do not meet, and what a write to one of them leaves of the other.
-/

namespace LinterClient.KeyPath

open Json (Members)

theorem splitDots_ne_nil (s : List Char) : splitDots s ≠ [] := by
  cases s with
  | nil => simp [splitDots]
  | cons c rest =>
    simp only [splitDots]
    split
    · simp
    · split <;> simp

theorem splitDots_append (s rest : List Char) :
    splitDots (s ++ '.' :: rest) = splitDots s ++ splitDots rest := by
  induction s with
  | nil => simp [splitDots]
  | cons c s ih =>
    simp only [List.cons_append, splitDots, ih]
    by_cases dot : c = '.'
    · simp [dot]
    · obtain ⟨piece, more, pieces⟩ := List.exists_cons_of_ne_nil (splitDots_ne_nil s)
      simp [dot, pieces]

theorem splitDots_of_no_dot {s : List Char} (plain : '.' ∉ s) : splitDots s = [s] := by
  induction s with
  | nil => rfl
  | cons c s ih =>
    have rest := ih fun member => plain (List.mem_cons_of_mem c member)
    have first : c ≠ '.' := fun h => plain (by simp [h])
    simp [splitDots, first, rest]

/-- A dot between two keys joins their paths. -/
theorem segments_append (a b : String) : segments (a ++ "." ++ b) = segments a ++ segments b := by
  have joined : (a ++ "." ++ b).toList = a.toList ++ '.' :: b.toList := by simp
  simp only [segments, joined, splitDots_append, List.filter_append, List.map_append]

theorem segments_of_no_dot {s : String} (plain : '.' ∉ s.toList) (filled : s ≠ "") :
    segments s = [s] := by
  have some : s.toList ≠ [] := fun h => filled (String.toList_eq_nil_iff.mp h)
  simp [segments, splitDots_of_no_dot plain, some]

theorem segments_head {s : String} {c : Char} (first : s.toList.head? = some c) (noDot : c ≠ '.') :
    ∃ piece more, segments s = String.ofList (c :: piece) :: more := by
  obtain ⟨rest, split⟩ := List.head?_eq_some_iff.mp first
  simp only [segments, split, splitDots, if_neg noDot]
  split
  · exact ⟨[], [], rfl⟩
  · rename_i piece more _
    exact ⟨piece, (more.filter (· ≠ [])).map String.ofList, rfl⟩

theorem no_dot_of_mem_splitDots {s piece : List Char} (member : piece ∈ splitDots s) : '.' ∉ piece := by
  induction s generalizing piece with
  | nil =>
    rw [List.mem_singleton.mp member]
    exact List.not_mem_nil
  | cons c s ih =>
    obtain ⟨first, more, pieces⟩ := List.exists_cons_of_ne_nil (splitDots_ne_nil s)
    rw [pieces] at ih
    simp only [splitDots, pieces] at member
    split at member
    · rcases List.mem_cons.mp member with rfl | member
      · exact List.not_mem_nil
      · exact ih member
    · rename_i other
      rcases List.mem_cons.mp member with rfl | member
      · intro dot
        rcases List.mem_cons.mp dot with same | dot
        · exact other same.symm
        · exact ih List.mem_cons_self dot
      · exact ih (List.mem_cons_of_mem _ member)

theorem no_dot_of_mem_segments {key segment : String} (member : segment ∈ segments key) :
    '.' ∉ segment.toList := by
  obtain ⟨piece, kept, rfl⟩ := List.mem_map.mp member
  rw [String.toList_ofList]
  exact no_dot_of_mem_splitDots (List.mem_filter.mp kept).1

theorem exists_mem_splitDots {s : List Char} {c : Char} (inside : c ∈ s) (other : c ≠ '.') :
    ∃ piece ∈ splitDots s, c ∈ piece := by
  induction s with
  | nil => cases inside
  | cons first s ih =>
    obtain ⟨piece, more, pieces⟩ := List.exists_cons_of_ne_nil (splitDots_ne_nil s)
    rw [pieces] at ih
    simp only [splitDots, pieces]
    rcases List.mem_cons.mp inside with rfl | inside
    · rw [if_neg other]
      exact ⟨_, List.mem_cons_self, List.mem_cons_self⟩
    · obtain ⟨found, listed, holds⟩ := ih inside
      split
      · exact ⟨found, List.mem_cons_of_mem _ listed, holds⟩
      · rcases List.mem_cons.mp listed with rfl | listed
        · exact ⟨_, List.mem_cons_self, List.mem_cons_of_mem _ holds⟩
        · exact ⟨found, List.mem_cons_of_mem _ listed, holds⟩

/-- A key with anything but dots leads somewhere. -/
theorem segments_ne_nil {key : String} {c : Char} (inside : c ∈ key.toList) (other : c ≠ '.') :
    segments key ≠ [] := by
  obtain ⟨piece, listed, holds⟩ := exists_mem_splitDots inside other
  intro empty
  have kept : piece ∈ (splitDots key.toList).filter (· ≠ []) :=
    List.mem_filter.mpr ⟨listed, decide_eq_true (List.ne_nil_of_mem holds)⟩
  rw [List.map_eq_nil_iff.mp empty] at kept
  cases kept

/-- A key is its pieces between dots, less the empty ones. -/
theorem segments_intercalate {pieces : List String} (plain : ∀ p ∈ pieces, '.' ∉ p.toList) :
    segments (".".intercalate pieces) = pieces.filter (· ≠ "") := by
  have one {p : String} (plain : '.' ∉ p.toList) : segments p = [p].filter (· ≠ "") := by
    by_cases empty : p = ""
    · subst empty
      rfl
    · simp [segments_of_no_dot plain empty, empty]
  induction pieces with
  | nil => rfl
  | cons p rest ih =>
    have first := one (plain p List.mem_cons_self)
    rcases rest with _ | ⟨q, rest⟩
    · rw [String.intercalate_singleton, first]
    · rw [String.intercalate_cons_cons, segments_append, first,
        ih fun q member => plain q (List.mem_cons_of_mem p member), ← List.filter_append]
      rfl

/-- Neither of two paths leads through the end of the other. -/
def Apart (path other : List String) : Prop :=
  ¬ path <+: other ∧ ¬ other <+: path

instance (path other : List String) : Decidable (Apart path other) :=
  inferInstanceAs (Decidable (_ ∧ _))

theorem Apart.symm {path other : List String} (apart : Apart path other) : Apart other path :=
  ⟨apart.2, apart.1⟩

theorem Apart.ne {key other : String} (apart : Apart (segments key) (segments other)) : key ≠ other := by
  rintro rfl
  exact apart.1 (List.prefix_refl _)

theorem apart_of_head_ne {a b : String} (path other : List String) (different : a ≠ b) :
    Apart (a :: path) (b :: other) := by
  constructor <;> intro begins <;> rw [List.cons_prefix_cons] at begins
  · exact different begins.1
  · exact different begins.1.symm

theorem apart_cons (a : String) (path other : List String) :
    Apart (a :: path) (a :: other) ↔ Apart path other := by
  simp [Apart, List.cons_prefix_cons]

theorem Apart.ne_nil {path other : List String} (apart : Apart path other) : other ≠ [] := by
  rintro rfl
  exact apart.2 (List.nil_prefix)

/-- Only the member at the head of a path matters to it. -/
theorem lookup_congr {m n : Members} {segment : String} (path : List String)
    (same : Members.get? m segment = Members.get? n segment) :
    lookup m (segment :: path) = lookup n (segment :: path) := by
  cases path <;> simp only [lookup, same]

theorem lookup_insert_obj (m next : Members) (segment : String) {path : List String}
    (filled : path ≠ []) :
    lookup (Members.insert segment (.obj next) m) (segment :: path) = lookup next path := by
  cases path with
  | nil => exact absurd rfl filled
  | cons first rest => simp [lookup]

theorem lookup_assign_self (root : Members) (value : Json) {path : List String} (filled : path ≠ []) :
    lookup (assign root value path) path = some value := by
  fun_induction assign root value path with
  | case1 => exact absurd rfl filled
  | case2 => simp [lookup]
  | case3 root segment path nonempty next ih =>
    rw [lookup_insert_obj _ _ _ nonempty]
    exact ih nonempty

@[simp] theorem lookup_nil (path : List String) : lookup [] path = none := by
  rcases path with _ | ⟨segment, _ | ⟨next, rest⟩⟩ <;> rfl

theorem lookup_cons_cons (root : Members) (segment next : String) (rest : List String) :
    lookup root (segment :: next :: rest) =
      match Members.get? root segment with
      | some (.obj child) => lookup child (next :: rest)
      | _ => none := rfl

/-- A parent that is no object holds as much as one without members. -/
theorem lookup_child (root : Members) (segment : String) {path : List String} (filled : path ≠ []) :
    lookup (match Members.get? root segment with | some (.obj next) => next | _ => []) path =
      lookup root (segment :: path) := by
  obtain ⟨first, rest, rfl⟩ := List.exists_cons_of_ne_nil filled
  rw [lookup_cons_cons]
  split <;> simp

/-- The members of the object at a name; other values have none. -/
def child (m : Members) (segment : String) : Members :=
  match Members.get? m segment with
  | some (.obj next) => next
  | _ => []

theorem assign_cons (m : Members) (v : Json) (segment : String) {path : List String} (filled : path ≠ []) :
    assign m v (segment :: path) = Members.insert segment (.obj (assign (child m segment) v path)) m := by
  cases path with
  | nil => exact absurd rfl filled
  | cons next rest => rfl

theorem lookup_cons (m : Members) (segment : String) {path : List String} (filled : path ≠ []) :
    lookup m (segment :: path) = lookup (child m segment) path :=
  (lookup_child m segment filled).symm

theorem lookup_of_child_nil {m : Members} {segment : String} (nothing : child m segment = [])
    {path : List String} (filled : path ≠ []) : lookup m (segment :: path) = none := by
  rw [lookup_cons m segment filled, nothing, lookup_nil]

theorem lookup_assign_of_apart (root : Members) (value : Json) {path other : List String}
    (apart : Apart path other) : lookup (assign root value path) other = lookup root other := by
  fun_induction assign root value path generalizing other with
  | case1 => rfl
  | case2 root last =>
    obtain ⟨first, rest, rfl⟩ := List.exists_cons_of_ne_nil apart.ne_nil
    have different : first ≠ last := fun h => apart.1 (by simp [h])
    exact lookup_congr rest (Members.get?_insert_of_ne _ _ different)
  | case3 root segment path =>
    rename_i ih
    obtain ⟨first, rest, rfl⟩ := List.exists_cons_of_ne_nil apart.ne_nil
    by_cases same : first = segment
    · subst same
      have below := (apart_cons first path rest).mp apart
      rw [lookup_insert_obj _ _ _ below.ne_nil, ih below]
      exact lookup_child root first below.ne_nil
    · exact lookup_congr rest (Members.get?_insert_of_ne _ _ same)

theorem lookup_remove_of_apart (root : Members) {path other : List String}
    (apart : Apart path other) : lookup (remove root path) other = lookup root other := by
  fun_induction remove root path generalizing other with
  | case1 => rfl
  | case2 root last =>
    obtain ⟨first, rest, rfl⟩ := List.exists_cons_of_ne_nil apart.ne_nil
    have different : first ≠ last := fun h => apart.1 (by simp [h])
    exact lookup_congr rest (by rw [Members.get?_erase, if_neg different])
  | case3 root segment path _ next child ih =>
    obtain ⟨first, rest, rfl⟩ := List.exists_cons_of_ne_nil apart.ne_nil
    by_cases same : first = segment
    · subst same
      have below := (apart_cons first path rest).mp apart
      rw [lookup_insert_obj _ _ _ below.ne_nil, ih below, ← lookup_child root first below.ne_nil, child]
    · exact lookup_congr rest (Members.get?_insert_of_ne _ _ same)
  | case4 => rfl

/-- Nothing is at or below a path that was removed. -/
theorem lookup_remove_of_prefix (m : Members) {path other : List String} (filled : path ≠ [])
    (begins : path <+: other) : lookup (remove m path) other = none := by
  fun_induction remove m path generalizing other with
  | case1 => exact absurd rfl filled
  | case2 m last =>
    obtain ⟨rest, rfl⟩ := begins
    have gone : Members.get? (m.erase last) last = none := by rw [Members.get?_erase, if_pos rfl]
    by_cases more : rest = []
    · rw [more]
      exact gone
    · exact lookup_of_child_nil (by rw [child, gone]) more
  | case3 m segment path nonempty next found ih =>
    obtain ⟨rest, rfl⟩ := begins
    have more : path ++ rest ≠ [] := List.append_ne_nil_of_left_ne_nil nonempty _
    rw [List.cons_append, lookup_insert_obj _ _ _ more]
    exact ih nonempty (List.prefix_append _ _)
  | case4 m segment path nonempty noObject =>
    obtain ⟨rest, rfl⟩ := begins
    have more : path ++ rest ≠ [] := List.append_ne_nil_of_left_ne_nil nonempty _
    refine lookup_of_child_nil ?_ more
    rw [child]
    split
    · rename_i next found
      exact absurd found (noObject next)
    · rfl

/-- A write leaves alone what lies neither above nor below it. -/
theorem lookup_update_of_apart (root : Members) (value : Option Json) {path other : List String}
    (apart : Apart path other) : lookup (update root value path) other = lookup root other := by
  cases value with
  | none => exact lookup_remove_of_apart root apart
  | some v => exact lookup_assign_of_apart root v apart

/-- The members of an object; other values have none. -/
def membersOf : Option Json → Members
  | some (.obj m) => m
  | _ => []

/-- Below the end of a path stands what is inside the value there. -/
theorem lookup_append (root : Members) {path rest : List String} (filled : path ≠ []) (more : rest ≠ []) :
    lookup root (path ++ rest) = lookup (membersOf (lookup root path)) rest := by
  induction path generalizing root with
  | nil => exact absurd rfl filled
  | cons segment path ih =>
    rw [List.cons_append, lookup_cons _ _ (List.append_ne_nil_of_right_ne_nil path more)]
    by_cases last : path = []
    · subst last
      rfl
    · rw [ih _ last, lookup_cons _ _ last]

/-- Above the end of a path an object is left, with the rest of the path assigned in it. -/
theorem lookup_assign_above (root : Members) (value : Json) {above rest : List String}
    (filled : above ≠ []) (more : rest ≠ []) :
    lookup (assign root value (above ++ rest)) above =
      some (.obj (assign (membersOf (lookup root above)) value rest)) := by
  induction above generalizing root with
  | nil => exact absurd rfl filled
  | cons segment above ih =>
    rw [List.cons_append, assign_cons _ _ _ (List.append_ne_nil_of_right_ne_nil above more)]
    rcases above with _ | ⟨second, above⟩
    · simp only [lookup, Members.get?_insert_self, List.nil_append]
      rfl
    · rw [lookup_insert_obj _ _ _ (List.cons_ne_nil _ _), ih _ (List.cons_ne_nil _ _),
        lookup_cons root segment (List.cons_ne_nil _ _)]

theorem get?_assign_of_ne (root : Members) (value : Json) {segment other : String} (rest : List String)
    (different : other ≠ segment) :
    Members.get? (assign root value (segment :: rest)) other = Members.get? root other := by
  cases rest <;> exact Members.get?_insert_of_ne _ _ different

end LinterClient.KeyPath
