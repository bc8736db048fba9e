import LinterClient.Toml.Document

/-!
Which values have a JSON form: those without a number in them that JSON does not have.
-/

namespace LinterClient.Toml

namespace Value

/-- Induction over a value, through arrays and tables. -/
@[elab_as_elim]
theorem induct {motive : Value → Prop} (str : ∀ s, motive (.str s)) (int : ∀ n, motive (.int n))
    (float : ∀ x, motive (.float x)) (bool : ∀ b, motive (.bool b)) (datetime : ∀ d, motive (.datetime d))
    (array : ∀ items, (∀ v ∈ items, motive v) → motive (.array items))
    (table : ∀ members : List (String × Value), (∀ p ∈ members, motive p.2) → motive (.table members)) :
    ∀ v, motive v
  | .str s => str s
  | .int n => int n
  | .float x => float x
  | .bool b => bool b
  | .datetime d => datetime d
  | .array items => array items fun v _ => induct str int float bool datetime array table v
  | .table members => table members fun p _ => induct str int float bool datetime array table p.2
termination_by v => sizeOf v
decreasing_by
  · have smaller := List.sizeOf_lt_of_mem ‹v ∈ items›
    simp only [Value.array.sizeOf_spec]
    omega
  · obtain ⟨name, v⟩ := p
    have smaller := List.sizeOf_lt_of_mem ‹(name, v) ∈ members›
    simp only [Prod.mk.sizeOf_spec, Value.table.sizeOf_spec] at smaller ⊢
    omega

/-- A value somewhere in a value. -/
inductive Within (x : Value) : Value → Prop
  | self : Within x x
  | item {v : Value} {items : List Value} (member : v ∈ items) (inside : Within x v) :
    Within x (.array items)
  | value {name : String} {v : Value} {members : List (String × Value)} (member : (name, v) ∈ members)
    (inside : Within x v) : Within x (.table members)

/-- Numbers must be numbers of JSON: whole ones of 64 bits, or finite ones. -/
def IsNumeric : Value → Prop
  | .int n => Json.InRange n
  | .float x => x.isFinite = true
  | _ => True

/-- All numbers in a value are numbers of JSON. -/
def Representable (v : Value) : Prop :=
  ∀ x, Within x v → x.IsNumeric

theorem representable_of_plain {v : Value} (noArray : ∀ items, v ≠ .array items)
    (noTable : ∀ members, v ≠ .table members) : v.Representable ↔ v.IsNumeric := by
  constructor
  · exact fun all => all v .self
  · intro own x inside
    cases inside with
    | self => exact own
    | item => exact absurd rfl (noArray _)
    | value => exact absurd rfl (noTable _)

theorem representable_array (items : List Value) :
    Representable (.array items) ↔ ∀ v ∈ items, v.Representable := by
  constructor
  · exact fun all v member x inside => all x (.item member inside)
  · intro each x inside
    cases inside with
    | self => trivial
    | item member inside => exact each _ member x inside

theorem representable_table (members : List (String × Value)) :
    Representable (.table members) ↔ ∀ p ∈ members, p.2.Representable := by
  constructor
  · exact fun all p member x inside => all x (.value member inside)
  · intro each x inside
    cases inside with
    | self => trivial
    | value member inside => exact each _ member x inside

theorem itemsToJson?_isSome (items : List Value) :
    (itemsToJson? items).isSome ↔ ∀ v ∈ items, v.toJson?.isSome := by
  induction items with
  | nil => simp [itemsToJson?]
  | cons v rest ih =>
    rw [List.forall_mem_cons, ← ih, itemsToJson?]
    cases v.toJson? <;> cases itemsToJson? rest <;> simp

theorem membersToJson?_isSome (members : List (String × Value)) :
    (membersToJson? members).isSome ↔ ∀ p ∈ members, p.2.toJson?.isSome := by
  induction members with
  | nil => simp [membersToJson?]
  | cons head rest ih =>
    obtain ⟨name, v⟩ := head
    rw [List.forall_mem_cons, ← ih, membersToJson?]
    cases v.toJson? <;> cases membersToJson? rest <;> simp

/-- A value has a JSON form if all numbers in it have one. -/
theorem toJson?_isSome_iff (v : Value) : v.toJson?.isSome ↔ v.Representable := by
  induction v using induct with
  | str => simp [toJson?, representable_of_plain, IsNumeric]
  | int n =>
    rw [representable_of_plain (by simp) (by simp), toJson?, Json.ofInt?, IsNumeric]
    split <;> simp [*]
  | float x =>
    rw [representable_of_plain (by simp) (by simp), toJson?, IsNumeric]
    split <;> simp [*]
  | bool => simp [toJson?, representable_of_plain, IsNumeric]
  | datetime => simp [toJson?, representable_of_plain, IsNumeric]
  | array items ih =>
    rw [representable_array, toJson?, Option.isSome_map, itemsToJson?_isSome]
    exact forall₂_congr ih
  | table members ih =>
    rw [representable_table, toJson?, Option.isSome_map, membersToJson?_isSome]
    exact forall₂_congr ih

end Value

/-- A document has settings if all numbers in it have a JSON form. -/
theorem Document.toJson?_isSome_iff (d : Document) :
    d.toJson?.isSome ↔ (Value.table d.data).Representable := by
  rw [Value.representable_table, toJson?, Option.isSome_map, Value.membersToJson?_isSome]
  exact forall₂_congr fun p _ => p.2.toJson?_isSome_iff

end LinterClient.Toml
