import LinterClient.Proofs.Json.Order
import LinterClient.Toml.Parser
import LinterClient.Toml.Printer

/-!
What the text of a document holds of it.

A table without a header of its own is in the text only as far as something in it is. All else is in the
text as it is in the document. The settings that are read back from the text are known by what each item
is read as.
-/

namespace LinterClient.Toml

open Json (Members)

namespace Item

mutual

/-- The value of an item in the text, if there is any trace of it. -/
def shown? : Item → Option Value
  | .value v _ _ => some v
  | .inline entries braces _ =>
    let members := entriesShown entries
    if braces.dotted ∧ members.isEmpty then none else some (.table members)
  | .table entries heading =>
    let members := entriesShown entries
    if heading.form ≠ .header ∧ members.isEmpty then none else some (.table members)
  | .tables elements => some (.array (elementsShown elements))

def entriesShown : List (Key × Item) → List (String × Value)
  | [] => []
  | (k, i) :: rest =>
    match shown? i with
    | some v => (k.name, v) :: entriesShown rest
    | none => entriesShown rest

/-- Each table of an array has its header. -/
def elementsShown : List Item → List Value
  | [] => []
  | .table entries _ :: rest => .table (entriesShown entries) :: elementsShown rest
  | _ :: rest => elementsShown rest

end

/-- What an item is read back as: nothing if it leaves no trace, and no settings at all if a number in it
has no JSON form. -/
def read? (i : Item) : Option (Option Json) :=
  match i.shown? with
  | none => some none
  | some v => v.toJson?.map some

end Item

namespace Entries

def Distinct (entries : Entries) : Prop :=
  (entries.map (·.1.name)).Nodup

/-- The settings in the text of some entries. -/
def members? (entries : Entries) : Option Members :=
  (Value.membersToJson? (Item.entriesShown entries)).map Members.sorted

/-- What is read back under a name. -/
def read? (entries : Entries) (name : String) : Option (Option Json) :=
  match entries.get? name with
  | none => some none
  | some i => i.read?

end Entries

/-- The text of a document is read back as what it shows. -/
def Document.PrintsBack (d : Document) : Prop :=
  (Document.parse? d.text).bind Document.toJson? = d.entries.members?

instance (d : Document) : Decidable d.PrintsBack :=
  inferInstanceAs (Decidable (_ = _))

/-! ## Entries by name -/

namespace Entries

@[simp] theorem get?_nil (name : String) : get? [] name = none := rfl

theorem get?_cons (k : Key) (i : Item) (rest : Entries) (name : String) :
    get? ((k, i) :: rest) name = if k.name = name then some i else get? rest name := by
  by_cases here : k.name = name <;> simp [get?, here]

theorem get?_append (front back : Entries) (name : String) :
    get? (front ++ back) name = (get? front name).or (get? back name) := by
  simp only [get?, List.find?_append]
  cases front.find? fun e => e.1.name = name <;> rfl

theorem get?_eq_none_iff (entries : Entries) (name : String) :
    entries.get? name = none ↔ name ∉ entries.map (·.1.name) := by
  simp only [get?, Option.map_eq_none_iff, List.find?_eq_none, decide_eq_true_eq, List.mem_map, not_exists,
    not_and]

theorem mem_of_get? {entries : Entries} {name : String} {i : Item} (found : entries.get? name = some i) :
    ∃ k : Key, k.name = name ∧ (k, i) ∈ entries := by
  obtain ⟨⟨k, j⟩, first, rfl⟩ := Option.map_eq_some_iff.mp found
  exact ⟨k, by simpa using List.find?_some first, List.mem_of_find?_eq_some first⟩

theorem get?_eq_some_iff {entries : Entries} (distinct : entries.Distinct) (name : String) (i : Item) :
    entries.get? name = some i ↔ ∃ k : Key, k.name = name ∧ (k, i) ∈ entries := by
  refine ⟨mem_of_get?, ?_⟩
  rintro ⟨k, rfl, member⟩
  induction entries with
  | nil => cases member
  | cons head rest ih =>
    obtain ⟨k', j⟩ := head
    obtain ⟨fresh, tail⟩ := List.nodup_cons.mp distinct
    rw [get?_cons]
    rcases List.mem_cons.mp member with same | later
    · cases same
      rw [if_pos rfl]
    · have other : k'.name ≠ k.name := by
        intro same
        exact fresh (List.mem_map.mpr ⟨(k, i), later, same.symm⟩)
      rw [if_neg other]
      exact ih tail later

end Entries

/-! ## Reading back -/

namespace Entries

theorem read?_of_get? {entries : Entries} {name : String} {i : Item}
    (found : entries.get? name = some i) : entries.read? name = i.read? := by
  rw [read?, found]

theorem read?_of_get?_none {entries : Entries} {name : String}
    (absent : entries.get? name = none) : entries.read? name = some none := by
  rw [read?, absent]

theorem read?_cons (k : Key) (i : Item) (rest : Entries) (name : String) :
    read? ((k, i) :: rest) name = if k.name = name then i.read? else read? rest name := by
  by_cases here : k.name = name <;> simp [read?, get?_cons, here]

variable {entries : Entries}

/-- The members in the order of the entries. -/
theorem of_membersToJson? {l : Members} (distinct : entries.Distinct)
    (read : Value.membersToJson? (Item.entriesShown entries) = some l) :
    (l.map (·.1)).Sublist (entries.map (·.1.name)) ∧
      ∀ name, entries.read? name = some (Members.get? l name) := by
  induction entries generalizing l with
  | nil =>
    cases read
    exact ⟨.slnil, fun name => rfl⟩
  | cons head rest ih =>
    obtain ⟨k, i⟩ := head
    obtain ⟨fresh, tail⟩ := List.nodup_cons.mp distinct
    cases shown : i.shown? with
    | none =>
      simp only [Item.entriesShown, shown] at read
      obtain ⟨names, found⟩ := ih tail read
      refine ⟨names.cons _, fun name => ?_⟩
      rw [read?_cons, ← found name]
      split
      · rename_i here
        rw [Item.read?, shown, read?_of_get?_none ((get?_eq_none_iff _ _).mpr (here ▸ fresh))]
      · rfl
    | some v =>
      simp only [Item.entriesShown, shown, Value.membersToJson?, Option.bind_eq_bind,
        Option.bind_eq_some_iff, Option.some.injEq] at read
      obtain ⟨j, value, l, more, rfl⟩ := read
      obtain ⟨names, found⟩ := ih tail more
      refine ⟨names.cons_cons _, fun name => ?_⟩
      rw [read?_cons, Members.get?_cons, found name]
      by_cases here : k.name = name
      · simp [here, Item.read?, shown, value]
      · simp [here, Ne.symm here]

theorem exists_membersToJson? (distinct : entries.Distinct)
    (read : ∀ name, (entries.read? name).isSome) :
    ∃ l, Value.membersToJson? (Item.entriesShown entries) = some l := by
  induction entries with
  | nil => exact ⟨[], rfl⟩
  | cons head rest ih =>
    obtain ⟨k, i⟩ := head
    obtain ⟨fresh, tail⟩ := List.nodup_cons.mp distinct
    have later (name : String) : (read? rest name).isSome := by
      by_cases here : k.name = name
      · rw [read?_of_get?_none ((get?_eq_none_iff _ _).mpr (here ▸ fresh))]
        rfl
      · simpa [read?_cons, here] using read name
    obtain ⟨l, more⟩ := ih tail later
    have first : i.read?.isSome := by simpa [read?_cons] using read k.name
    cases shown : i.shown? with
    | none => exact ⟨l, by simpa only [Item.entriesShown, shown] using more⟩
    | some v =>
      obtain ⟨j, value⟩ : ∃ j, v.toJson? = some j := by
        simpa [Item.read?, shown, Option.isSome_iff_exists] using first
      refine ⟨(k.name, j) :: l, ?_⟩
      simp [Item.entriesShown, shown, Value.membersToJson?, value, more]

/-- The settings in the text of entries with different names are what each name is read as. -/
theorem members?_eq_some_iff (distinct : entries.Distinct) (m : Members) :
    entries.members? = some m ↔ m.Ordered ∧ ∀ name, entries.read? name = some (Members.get? m name) := by
  rw [members?, Option.map_eq_some_iff]
  constructor
  · rintro ⟨l, read, rfl⟩
    obtain ⟨names, found⟩ := of_membersToJson? distinct read
    refine ⟨Members.ordered_sorted l, fun name => ?_⟩
    rw [found, Members.get?_sorted_of_nodup (distinct.sublist names)]
  · rintro ⟨ordered, found⟩
    obtain ⟨l, read⟩ := exists_membersToJson? distinct fun name => by simp [found name]
    obtain ⟨names, found'⟩ := of_membersToJson? distinct read
    refine ⟨l, read, (Members.ordered_sorted l).ext ordered fun name => ?_⟩
    have same := (found' name).symm.trans (found name)
    rw [Members.get?_sorted_of_nodup (distinct.sublist names)]
    exact Option.some.inj same

end Entries

/-! ## Tables -/

/-- What a table with these members is read back as. One that is only implied needs a member. -/
def object? (implied : Bool) (m : Members) : Option Json :=
  if implied ∧ m = [] then none else some (.obj m)

theorem object?_eq_obj_iff (implied : Bool) (m n : Members) :
    object? implied m = some (.obj n) ↔ m = n ∧ ¬ (implied = true ∧ m = []) := by
  rw [object?]
  split
  · simp [*]
  · simp [*]

theorem membersToJson?_nil_iff {members : List (String × Value)} {l : Members}
    (read : Value.membersToJson? members = some l) : l = [] ↔ members = [] := by
  cases members with
  | nil =>
    cases read
    simp
  | cons head rest =>
    obtain ⟨name, v⟩ := head
    simp only [Value.membersToJson?, Option.bind_eq_bind, Option.bind_eq_some_iff, Option.some.injEq] at read
    obtain ⟨j, -, more, -, rfl⟩ := read
    simp

/-- The two kinds of tables are read back alike. -/
theorem read?_members (implied : Bool) (entries : Entries) :
    (match if implied ∧ (Item.entriesShown entries).isEmpty then none
        else some (Value.table (Item.entriesShown entries)) with
      | none => some none
      | some v => v.toJson?.map some) = entries.members?.map (object? implied) := by
  by_cases hidden : implied ∧ (Item.entriesShown entries).isEmpty
  · have nothing : Item.entriesShown entries = [] := List.isEmpty_iff.mp hidden.2
    rw [if_pos hidden]
    simp [Entries.members?, nothing, Value.membersToJson?, object?, hidden.1, Members.sorted]
  · rw [if_neg hidden]
    simp only [Value.toJson?, Entries.members?]
    cases read : Value.membersToJson? (Item.entriesShown entries) with
    | none => rfl
    | some l =>
      have visible : ¬ (implied ∧ l.sorted = []) := by
        rwa [Members.sorted_eq_nil_iff, membersToJson?_nil_iff read, ← List.isEmpty_iff]
      simp [object?, visible, Json.ofMembers]

theorem Item.read?_table (entries : Entries) (heading : Heading) :
    (Item.table entries heading).read? = entries.members?.map (object? (heading.form ≠ .header)) := by
  rw [← read?_members, Item.read?, Item.shown?]
  simp only [decide_eq_true_eq]

theorem Item.read?_inline (entries : Entries) (braces : Braces) (around : Trivia) :
    (Item.inline entries braces around).read? = entries.members?.map (object? braces.dotted) := by
  rw [← read?_members, Item.read?, Item.shown?]

end LinterClient.Toml
