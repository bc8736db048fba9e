import LinterClient.Proofs.Json.Order

/-!
The values inside a JSON value, and a value without the members that are `null`.
-/

namespace LinterClient.Json

/-- Induction over a value, through arrays and objects. -/
@[elab_as_elim]
theorem induct {motive : Json → Prop} (null : motive .null) (bool : ∀ b, motive (.bool b))
    (num : ∀ n, motive (.num n)) (str : ∀ s, motive (.str s))
    (arr : ∀ items, (∀ v ∈ items, motive v) → motive (.arr items))
    (obj : ∀ members : Members, (∀ p ∈ members, motive p.2) → motive (.obj members)) :
    ∀ v, motive v
  | .null => null
  | .bool b => bool b
  | .num n => num n
  | .str s => str s
  | .arr items => arr items fun v _ => induct null bool num str arr obj v
  | .obj members => obj members fun p _ => induct null bool num str arr obj p.2
termination_by v => sizeOf v
decreasing_by
  · have smaller := List.sizeOf_lt_of_mem ‹v ∈ items›
    simp only [Json.arr.sizeOf_spec]
    omega
  · obtain ⟨name, v⟩ := p
    have smaller := List.sizeOf_lt_of_mem ‹(name, v) ∈ members›
    simp only [Prod.mk.sizeOf_spec, Json.obj.sizeOf_spec] at smaller ⊢
    omega

/-- A value somewhere in a value. -/
inductive Part (x : Json) : Json → Prop
  | self : Part x x
  | item {v : Json} {items : List Json} (member : v ∈ items) (inside : Part x v) : Part x (.arr items)
  | value {name : String} {v : Json} {members : Members} (member : (name, v) ∈ members) (inside : Part x v) :
    Part x (.obj members)

/-- A value that is reached through objects only. -/
inductive Branch (x : Json) : Json → Prop
  | self : Branch x x
  | value {name : String} {v : Json} {members : Members} (member : (name, v) ∈ members)
    (inside : Branch x v) : Branch x (.obj members)

theorem Part.trans {x y v : Json} (outer : Part y v) (inner : Part x y) : Part x v := by
  induction outer with
  | self => exact inner
  | item member _ ih => exact .item member ih
  | value member _ ih => exact .value member ih

theorem Branch.part {x v : Json} (branch : Branch x v) : Part x v := by
  induction branch with
  | self => exact .self
  | value member _ ih => exact .value member ih

mutual

/-- The value without the members of its objects that are `null`. -/
def withoutNulls : Json → Json
  | .arr items => .arr (itemsWithoutNulls items)
  | .obj members => .obj (membersWithoutNulls members)
  | .null => .null
  | .bool b => .bool b
  | .num n => .num n
  | .str s => .str s

def itemsWithoutNulls : List Json → List Json
  | [] => []
  | v :: rest => withoutNulls v :: itemsWithoutNulls rest

def membersWithoutNulls : List (String × Json) → Members
  | [] => []
  | (_, .null) :: rest => membersWithoutNulls rest
  | (k, v) :: rest => (k, withoutNulls v) :: membersWithoutNulls rest

end

theorem itemsWithoutNulls_eq_map (items : List Json) : itemsWithoutNulls items = items.map withoutNulls := by
  induction items with
  | nil => rfl
  | cons v rest ih => rw [itemsWithoutNulls, ih, List.map_cons]

theorem membersWithoutNulls_cons (name : String) {v : Json} (present : v ≠ .null) (rest : Members) :
    membersWithoutNulls ((name, v) :: rest) = (name, v.withoutNulls) :: membersWithoutNulls rest := by
  cases v with
  | null => exact absurd rfl present
  | _ => rfl

theorem membersWithoutNulls_eq (m : Members) :
    membersWithoutNulls m = (m.filter (·.2 ≠ .null)).map fun p => (p.1, p.2.withoutNulls) := by
  induction m with
  | nil => rfl
  | cons head rest ih =>
    obtain ⟨name, v⟩ := head
    cases v <;> simp [membersWithoutNulls, ih]

/-- Without `null`, nothing is left out. -/
theorem withoutNulls_eq {v : Json} (filled : ∀ x, Part x v → x ≠ .null) : v.withoutNulls = v := by
  induction v using induct with
  | null => rfl
  | bool => rfl
  | num => rfl
  | str => rfl
  | arr items ih =>
    rw [withoutNulls, itemsWithoutNulls_eq_map, Json.arr.injEq]
    refine (List.map_congr_left fun v member => ?_).trans (List.map_id items)
    exact ih v member fun x inside => filled x (.item member inside)
  | obj members ih =>
    have kept : members.filter (·.2 ≠ .null) = members := by
      refine List.filter_eq_self.mpr fun p member => ?_
      simpa using filled p.2 (.value member .self)
    rw [withoutNulls, membersWithoutNulls_eq, kept, Json.obj.injEq]
    refine (List.map_congr_left fun p member => ?_).trans (List.map_id members)
    exact Prod.ext rfl (ih p member fun x inside => filled x (.value member inside))

end LinterClient.Json
