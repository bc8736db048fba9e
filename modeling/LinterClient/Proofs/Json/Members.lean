import LinterClient.Json.Basic

/-!
Members of objects through `get?`.

A change to the members is known by what `get?` finds afterwards. The laws hold for every list of
members, sorted or not.
-/

namespace LinterClient

theorem lookup_cons_if {α β : Type} [BEq α] [LawfulBEq α] [DecidableEq α] (name key : α) (value : β)
    (rest : List (α × β)) :
    ((name, value) :: rest).lookup key = if key = name then some value else rest.lookup key := by
  by_cases same : key = name
  · subst same
    rw [List.lookup_cons_self, if_pos rfl]
  · have different : (key == name) = false := beq_eq_false_iff_ne.mpr same
    rw [List.lookup_cons, different, if_neg same]

theorem lookup_filter_ne {α β : Type} [BEq α] [LawfulBEq α] [DecidableEq α] (l : List (α × β)) (name key : α) :
    (l.filter (·.1 ≠ name)).lookup key = if key = name then none else l.lookup key := by
  induction l with
  | nil => simp
  | cons head rest ih =>
    obtain ⟨k, v⟩ := head
    by_cases gone : k = name
    · rw [List.filter_cons_of_neg (by simpa using gone), ih, lookup_cons_if, gone]
      split <;> rfl
    · rw [List.filter_cons_of_pos (by simpa using gone), lookup_cons_if, ih, lookup_cons_if]
      by_cases same : key = k
      · rw [if_pos same, if_pos same, if_neg (same ▸ gone)]
      · rw [if_neg same, if_neg same]

theorem lookup_isSome_iff {α β : Type} [BEq α] [LawfulBEq α] [DecidableEq α] (l : List (α × β)) (key : α) :
    (l.lookup key).isSome ↔ key ∈ l.map (·.1) := by
  induction l with
  | nil => simp
  | cons head rest ih =>
    obtain ⟨name, value⟩ := head
    rw [lookup_cons_if, List.map_cons, List.mem_cons, ← ih]
    by_cases same : key = name <;> simp [same]

namespace Json.Members

@[simp] theorem get?_nil (key : String) : get? [] key = none := rfl

theorem get?_cons (name key : String) (value : Json) (rest : Members) :
    get? ((name, value) :: rest) key = if key = name then some value else get? rest key :=
  lookup_cons_if name key value rest

theorem get?_insert (name key : String) (value : Json) (m : Members) :
    get? (insert name value m) key = if key = name then some value else get? m key := by
  induction m with
  | nil => simp [insert, get?_cons]
  | cons head rest ih =>
    obtain ⟨k, v⟩ := head
    simp only [insert]
    split
    · rename_i same
      subst same
      by_cases found : key = name <;> simp [get?_cons, found]
    · rename_i different
      split
      · simp [get?_cons]
      · rw [get?_cons, ih, get?_cons]
        by_cases found : key = k
        · subst found
          simp [Ne.symm different]
        · simp [found]

@[simp] theorem get?_insert_self (name : String) (value : Json) (m : Members) :
    get? (insert name value m) name = some value := by
  rw [get?_insert, if_pos rfl]

theorem get?_insert_of_ne {name key : String} (value : Json) (m : Members) (different : key ≠ name) :
    get? (insert name value m) key = get? m key := by
  rw [get?_insert, if_neg different]

theorem get?_erase (m : Members) (name key : String) :
    get? (erase m name) key = if key = name then none else get? m key :=
  lookup_filter_ne m name key

theorem mem_of_get? {m : Members} {key : String} {value : Json} (found : get? m key = some value) :
    (key, value) ∈ m := by
  induction m with
  | nil => cases found
  | cons head rest ih =>
    obtain ⟨name, v⟩ := head
    rw [get?_cons] at found
    split at found
    · rename_i here
      rw [here, Option.some.inj found]
      exact List.mem_cons_self
    · exact List.mem_cons_of_mem _ (ih found)

/-- What is laid over wins. -/
theorem get?_extend (m new : Members) (key : String) :
    get? (extend m new) key = (get? new key).or (get? m key) := by
  induction new with
  | nil => rfl
  | cons head rest ih =>
    obtain ⟨name, value⟩ := head
    have step : extend m ((name, value) :: rest) = insert name value (extend m rest) := rfl
    rw [step, get?_insert, get?_cons, ih]
    by_cases found : key = name <;> simp [found]

/-- Of equal names the last counts. -/
theorem get?_sorted (m : Members) (key : String) : get? m.sorted key = get? m.reverse key := by
  have build (acc : Members) : get? (m.foldl (fun acc p => insert p.1 p.2 acc) acc) key =
      (get? m.reverse key).or (get? acc key) := by
    induction m generalizing acc with
    | nil => rfl
    | cons head rest ih =>
      obtain ⟨name, value⟩ := head
      rw [List.foldl_cons, ih, get?_insert, List.reverse_cons]
      have last : get? (rest.reverse ++ [(name, value)]) key =
          (get? rest.reverse key).or (if key = name then some value else none) := by
        rw [get?, List.lookup_append, lookup_cons_if]
        rfl
      rw [last, Option.or_assoc]
      split <;> rfl
  rw [sorted, build]
  exact Option.or_none

end Json.Members

theorem Json.get?_ofMembers (m : Json.Members) (key : String) :
    (Json.ofMembers m).get? key = Json.Members.get? m.reverse key :=
  Json.Members.get?_sorted m key

end LinterClient
