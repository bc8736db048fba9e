import LinterClient.Proofs.Json.Parts
import LinterClient.Proofs.Toml.Editing

/-!
Items that are made of JSON values.

A value is read back without its members that are `null`, if its whole numbers fit and, unless it stands
between braces, no object in it is empty. Only `null` in an array has no item at all.
-/

namespace LinterClient.Toml

open Json (Members)

/-- All whole numbers are in the range that is written exactly. -/
def Fits (v : Json) : Prop :=
  ∀ n inRange, Json.Part (.num (.int n inRange)) v → n ≤ 0x7FFFFFFFFFFFFFFF

theorem fits_arr (items : List Json) : Fits (.arr items) ↔ ∀ v ∈ items, Fits v := by
  constructor
  · exact fun fits v member n inRange inside => fits n inRange (.item member inside)
  · intro fits n inRange inside
    cases inside with
    | item member inside => exact fits _ member n inRange inside

theorem fits_obj (m : Members) : Fits (.obj m) ↔ ∀ p ∈ m, Fits p.2 := by
  constructor
  · exact fun fits p member n inRange inside => fits n inRange (.value member inside)
  · intro fits n inRange inside
    cases inside with
    | value member inside => exact fits _ member n inRange inside

theorem fits_null : Fits .null := by
  intro n inRange inside
  cases inside

/-! ## Values on one line -/

namespace Value

theorem itemsToJson?_iff {items : List Json} {xs : List Value}
    (each : ∀ v ∈ items, ∀ x, ofJson? v = some x → (x.toJson? = some v.withoutNulls ↔ Fits v))
    (made : ofItems? items = some xs) :
    itemsToJson? xs = some (items.map Json.withoutNulls) ↔ ∀ v ∈ items, Fits v := by
  induction items generalizing xs with
  | nil =>
    cases made
    simp [itemsToJson?]
  | cons v rest ih =>
    simp only [ofItems?, Option.bind_eq_bind, Option.bind_eq_some_iff, Option.some.injEq] at made
    obtain ⟨x, first, xs, more, rfl⟩ := made
    have later := ih (fun v member => each v (List.mem_cons_of_mem _ member)) more
    rw [List.forall_mem_cons, ← each v List.mem_cons_self x first, ← later]
    simp only [itemsToJson?, Option.bind_eq_bind, Option.bind_eq_some_iff, Option.some.injEq,
      List.map_cons, List.cons.injEq]
    constructor
    · rintro ⟨j, head, js, tail, rfl, rfl⟩
      exact ⟨head, tail⟩
    · rintro ⟨head, tail⟩
      exact ⟨_, head, _, tail, rfl, rfl⟩

theorem ofMembers?_cons (name : String) {v : Json} (present : v ≠ .null) (rest : Members) :
    ofMembers? ((name, v) :: rest) =
      (ofJson? v).bind fun x => (ofMembers? rest).bind fun xs => some ((name, x) :: xs) := by
  cases v with
  | null => exact absurd rfl present
  | _ => rfl

theorem membersToJson?_iff {m : Members} {xs : List (String × Value)}
    (each : ∀ p ∈ m, ∀ x, ofJson? p.2 = some x → (x.toJson? = some p.2.withoutNulls ↔ Fits p.2))
    (made : ofMembers? m = some xs) :
    membersToJson? xs = some (Json.membersWithoutNulls m) ↔ ∀ p ∈ m, Fits p.2 := by
  induction m generalizing xs with
  | nil =>
    cases made
    simp [membersToJson?, Json.membersWithoutNulls]
  | cons head rest ih =>
    obtain ⟨name, v⟩ := head
    have later {xs : List (String × Value)} (made : ofMembers? rest = some xs) :=
      ih (fun p member => each p (List.mem_cons_of_mem _ member)) made
    by_cases absent : v = .null
    · subst absent
      rw [List.forall_mem_cons, ← later made]
      exact (and_iff_right fits_null).symm
    · rw [ofMembers?_cons name absent] at made
      simp only [Option.bind_eq_some_iff, Option.some.injEq] at made
      obtain ⟨x, first, xs, more, rfl⟩ := made
      rw [List.forall_mem_cons, ← each (name, v) List.mem_cons_self x first, ← later more,
        Json.membersWithoutNulls_cons name absent]
      simp only [membersToJson?, Option.bind_eq_bind, Option.bind_eq_some_iff, Option.some.injEq,
        List.cons.injEq, Prod.mk.injEq, true_and]
      constructor
      · rintro ⟨j, head, js, tail, rfl, rfl⟩
        exact ⟨head, tail⟩
      · rintro ⟨head, tail⟩
        exact ⟨_, head, _, tail, rfl, rfl⟩

theorem names_membersToJson? {xs : List (String × Value)} {m : Members} (read : membersToJson? xs = some m) :
    m.map (·.1) = xs.map (·.1) := by
  induction xs generalizing m with
  | nil =>
    cases read
    rfl
  | cons head rest ih =>
    obtain ⟨name, x⟩ := head
    simp only [membersToJson?, Option.bind_eq_bind, Option.bind_eq_some_iff, Option.some.injEq] at read
    obtain ⟨j, -, js, tail, rfl⟩ := read
    rw [List.map_cons, List.map_cons, ih tail]

theorem names_ofMembers? {m : Members} {xs : List (String × Value)} (made : ofMembers? m = some xs) :
    (xs.map (·.1)).Sublist (m.map (·.1)) := by
  induction m generalizing xs with
  | nil =>
    cases made
    exact .slnil
  | cons head rest ih =>
    obtain ⟨name, v⟩ := head
    by_cases absent : v = .null
    · subst absent
      exact (ih made).cons _
    · rw [ofMembers?_cons name absent] at made
      simp only [Option.bind_eq_some_iff, Option.some.injEq] at made
      obtain ⟨x, first, xs, more, rfl⟩ := made
      exact (ih more).cons_cons _

theorem ofNumber_iff (n : Json.Number) :
    (ofNumber n).toJson? = some (.num n) ↔ Fits (.num n) := by
  cases n with
  | int n inRange =>
    have range : Fits (.num (.int n inRange)) ↔ n ≤ 0x7FFFFFFFFFFFFFFF := by
      constructor
      · exact fun fits => fits n inRange .self
      · intro bound k inRange' inside
        cases inside
        exact bound
    rw [range, ofNumber]
    by_cases bound : n ≤ 0x7FFFFFFFFFFFFFFF
    · simp [bound, toJson?, Json.ofInt?, inRange]
    · simp only [bound, if_false, toJson?, iff_false]
      split <;> simp
  | float x finite =>
    have nothing : Fits (.num (.float x finite)) := fun n inRange inside => by cases inside
    simp [ofNumber, toJson?, finite, nothing]

/-- A value on one line is read back without its members that are `null`, if its whole numbers fit. -/
theorem toJson?_ofJson?_iff {v : Json} (sorted : v.sorted = v) {x : Value} (made : ofJson? v = some x) :
    x.toJson? = some v.withoutNulls ↔ Fits v := by
  induction v using Json.induct generalizing x with
  | null => cases made
  | bool b =>
    cases made
    have nothing : Fits (.bool b) := fun n inRange inside => by cases inside
    simp [toJson?, Json.withoutNulls, nothing]
  | num n =>
    cases made
    exact ofNumber_iff n
  | str s =>
    cases made
    have nothing : Fits (.str s) := fun n inRange inside => by cases inside
    simp [toJson?, Json.withoutNulls, nothing]
  | arr items ih =>
    obtain ⟨xs, listed, rfl⟩ := Option.map_eq_some_iff.mp made
    have each := (Json.sorted_arr_iff items).mp sorted
    rw [fits_arr, ← itemsToJson?_iff (fun v member x => ih v member (each v member)) listed]
    simp [toJson?, Json.withoutNulls, Json.itemsWithoutNulls_eq_map]
  | obj m ih =>
    obtain ⟨xs, listed, rfl⟩ := Option.map_eq_some_iff.mp made
    obtain ⟨ordered, each⟩ := Json.ordered_of_sorted_obj sorted
    rw [fits_obj, ← membersToJson?_iff (fun p member x => ih p member (each p member)) listed]
    -- what is read back is sorted already
    have settled (l : Members) (read : membersToJson? xs = some l) : l.sorted = l := by
      have names := (List.pairwise_map.mpr ordered).sublist (names_ofMembers? listed)
      rw [← names_membersToJson? read] at names
      exact Members.Ordered.sorted_eq (List.pairwise_map.mp names)
    simp only [toJson?, Json.withoutNulls, Option.map_eq_some_iff, Json.ofMembers, Json.obj.injEq]
    constructor
    · rintro ⟨l, read, same⟩
      rw [← same, settled l read, read]
    · intro read
      exact ⟨_, read, settled _ read⟩

end Value

/-! ## Items -/

/-- Outside arrays, no object is empty once its members that are `null` are left out. -/
def Shows (v : Json) : Prop :=
  ¬ Json.Branch (.obj []) v.withoutNulls

theorem shows_of_plain {v : Json} (plain : ∀ m, v ≠ .obj m) : Shows v := by
  intro branch
  cases v with
  | obj m => exact plain m rfl
  | _ =>
    rw [Json.withoutNulls] at branch
    cases branch

theorem shows_obj (m : Members) :
    Shows (.obj m) ↔ Json.membersWithoutNulls m ≠ [] ∧ ∀ p ∈ m, Shows p.2 := by
  constructor
  · intro shows
    refine ⟨fun empty => shows ?_, fun p member branch => ?_⟩
    · rw [Json.withoutNulls, empty]
      exact .self
    · by_cases absent : p.2 = .null
      · exact shows_of_plain (by simp) (absent ▸ branch)
      · have kept : (p.1, p.2.withoutNulls) ∈ Json.membersWithoutNulls m := by
          rw [Json.membersWithoutNulls_eq, List.mem_map]
          exact ⟨p, List.mem_filter.mpr ⟨member, by simpa using absent⟩, rfl⟩
        exact shows (Json.Branch.value kept branch)
  · rintro ⟨filled, each⟩ branch
    rw [Json.withoutNulls] at branch
    generalize kept : Json.membersWithoutNulls m = members at branch filled
    cases branch with
    | self => exact filled rfl
    | value member branch =>
      rw [← kept, Json.membersWithoutNulls_eq, List.mem_map] at member
      obtain ⟨p, member, same⟩ := member
      cases same
      exact each p (List.mem_filter.mp member).1 branch

namespace Item

theorem ofMembers?_cons (name : String) {v : Json} (present : v ≠ .null) (rest : Members) :
    ofMembers? ((name, v) :: rest) =
      (ofJson? v).bind fun i => (ofMembers? rest).bind fun is => some ((.new name, i) :: is) := by
  cases v with
  | null => exact absurd rfl present
  | _ => rfl

theorem ofJson?_of_plain {v : Json} (plain : ∀ m, v ≠ .obj m) :
    ofJson? v = (Value.ofJson? v).map fun data => .value data none .usual := by
  cases v with
  | obj m => exact absurd rfl (plain m)
  | _ => rfl

theorem names_ofMembers? {m : Members} {is : Entries} (made : ofMembers? m = some is) :
    (is.map (·.1.name)).Sublist (m.map (·.1)) := by
  induction m generalizing is with
  | nil =>
    cases made
    exact .slnil
  | cons head rest ih =>
    obtain ⟨name, v⟩ := head
    by_cases absent : v = .null
    · subst absent
      exact (ih made).cons _
    · rw [ofMembers?_cons name absent] at made
      simp only [Option.bind_eq_some_iff, Option.some.injEq] at made
      obtain ⟨i, first, is, more, rfl⟩ := made
      exact (ih more).cons_cons _

/-- Between braces an item shows the value on one line. -/
theorem inlined_shown {v : Json} {i : Item} (made : ofJson? v = some i) :
    ∃ x, Value.ofJson? v = some x ∧ i.inlined.shown? = some x := by
  induction v using Json.induct generalizing i with
  | obj m ih =>
    obtain ⟨is, listed, rfl⟩ := Option.map_eq_some_iff.mp made
    have members : ∃ xs, Value.ofMembers? m = some xs ∧ entriesShown (entriesInlined is) = xs := by
      clear made
      induction m generalizing is with
      | nil =>
        cases listed
        exact ⟨[], rfl, rfl⟩
      | cons head rest later =>
        obtain ⟨name, v⟩ := head
        have below : ∀ p ∈ rest, ∀ {i : Item}, ofJson? p.2 = some i →
            ∃ x, Value.ofJson? p.2 = some x ∧ i.inlined.shown? = some x :=
          fun p member => ih p (List.mem_cons_of_mem _ member)
        by_cases absent : v = .null
        · subst absent
          exact later below is listed
        · rw [ofMembers?_cons name absent] at listed
          simp only [Option.bind_eq_some_iff, Option.some.injEq] at listed
          obtain ⟨i, first, is, more, rfl⟩ := listed
          obtain ⟨x, made, shown⟩ := ih (name, v) List.mem_cons_self first
          obtain ⟨xs, others, tail⟩ := later below is more
          refine ⟨(name, x) :: xs, ?_, ?_⟩
          · simp only [Value.ofMembers?_cons name absent, made, others, Option.bind_some]
          · simp only [entriesInlined, entriesShown, shown, tail, Key.new]
    obtain ⟨xs, values, shown⟩ := members
    refine ⟨.table xs, by rw [Value.ofJson?, values, Option.map_some], ?_⟩
    simp [inlined, shown?, shown, Braces.new]
  | _ =>
    rw [ofJson?_of_plain (by simp)] at made
    obtain ⟨x, value, rfl⟩ := Option.map_eq_some_iff.mp made
    exact ⟨x, value, rfl⟩

theorem read?_inlined_iff {v : Json} (sorted : v.sorted = v) {i : Item} (made : ofJson? v = some i) :
    i.inlined.read? = some (some v.withoutNulls) ↔ Fits v := by
  obtain ⟨x, value, shown⟩ := inlined_shown made
  rw [← Value.toJson?_ofJson?_iff sorted value, read?, shown]
  simp

/-- The members of a new table are read back one by one. -/
theorem members?_ofMembers?_iff {m : Members} (ordered : m.Ordered) {is : Entries}
    (each : ∀ p ∈ m, ∀ i, ofJson? p.2 = some i →
      (i.read? = some (some p.2.withoutNulls) ↔ Fits p.2 ∧ Shows p.2))
    (made : ofMembers? m = some is) :
    is.members? = some (Json.membersWithoutNulls m) ↔ ∀ p ∈ m, Fits p.2 ∧ Shows p.2 := by
  have distinct : is.Distinct := ordered.nodup.sublist (names_ofMembers? made)
  have kept : Members.Ordered (Json.membersWithoutNulls m) := by
    rw [Json.membersWithoutNulls_eq]
    exact List.pairwise_map.mpr (ordered.sublist List.filter_sublist)
  rw [Entries.members?_eq_some_iff distinct, and_iff_right kept]
  clear kept distinct
  induction m generalizing is with
  | nil =>
    cases made
    simp [Entries.read?, Json.membersWithoutNulls]
  | cons head rest ih =>
    obtain ⟨name, v⟩ := head
    obtain ⟨below, tail⟩ := List.pairwise_cons.mp ordered
    have later (is : Entries) (made : ofMembers? rest = some is) :
        (∀ key, is.read? key = some (Members.get? (Json.membersWithoutNulls rest) key)) ↔
          ∀ p ∈ rest, Fits p.2 ∧ Shows p.2 :=
      ih tail (fun p member => each p (List.mem_cons_of_mem _ member)) made
    by_cases absent : v = .null
    · subst absent
      rw [List.forall_mem_cons, ← later is made]
      exact (and_iff_right ⟨fits_null, shows_of_plain (by simp)⟩).symm
    · rw [ofMembers?_cons name absent] at made
      simp only [Option.bind_eq_some_iff, Option.some.injEq] at made
      obtain ⟨i, first, is, more, rfl⟩ := made
      rw [List.forall_mem_cons, ← each (name, v) List.mem_cons_self i first, ← later is more,
        Json.membersWithoutNulls_cons name absent]
      -- the first name is in neither of the rests
      have fresh : Entries.read? is name = some none := by
        refine Entries.read?_of_get?_none ((Entries.get?_eq_none_iff _ _).mpr fun member => ?_)
        obtain ⟨p, inside, same⟩ := List.mem_map.mp ((names_ofMembers? more).subset member)
        exact absurd same.symm (below p inside).ne
      have gone : Members.get? (Json.membersWithoutNulls rest) name = none := by
        refine Members.get?_none_of_lt fun p member => ?_
        rw [Json.membersWithoutNulls_eq, List.mem_map] at member
        obtain ⟨q, inside, rfl⟩ := member
        exact below q (List.mem_filter.mp inside).1
      simp only [Entries.read?_cons, Members.get?_cons, Key.new]
      constructor
      · intro found
        refine ⟨by simpa using found name, fun key => ?_⟩
        by_cases here : key = name
        · rw [here, fresh, gone]
        · simpa [here, Ne.symm here] using found key
      · rintro ⟨head, found⟩ key
        by_cases here : key = name
        · simp [here, head]
        · simpa [here, Ne.symm here] using found key

/-- A value is read back without its members that are `null`, if its whole numbers fit and no object
outside arrays is empty. -/
theorem read?_ofJson?_iff {v : Json} (sorted : v.sorted = v) {i : Item} (made : ofJson? v = some i) :
    i.read? = some (some v.withoutNulls) ↔ Fits v ∧ Shows v := by
  induction v using Json.induct generalizing i with
  | obj m ih =>
    obtain ⟨is, listed, rfl⟩ := Option.map_eq_some_iff.mp made
    obtain ⟨ordered, each⟩ := Json.ordered_of_sorted_obj sorted
    have members := members?_ofMembers?_iff ordered
      (fun p member i made => ih p member (each p member) made) listed
    have fitting : (Fits (.obj m) ∧ Shows (.obj m)) ↔
        Json.membersWithoutNulls m ≠ [] ∧ ∀ p ∈ m, Fits p.2 ∧ Shows p.2 := by
      rw [fits_obj, shows_obj]
      constructor
      · rintro ⟨fits, filled, shows⟩
        exact ⟨filled, fun p member => ⟨fits p member, shows p member⟩⟩
      · rintro ⟨filled, both⟩
        exact ⟨fun p member => (both p member).1, filled, fun p member => (both p member).2⟩
    rw [fitting, ← members, read?_table, Json.withoutNulls, Option.map_eq_some_iff]
    constructor
    · rintro ⟨n, read, object⟩
      obtain ⟨rfl, visible⟩ := (object?_eq_obj_iff _ _ _).mp object
      exact ⟨fun empty => visible ⟨rfl, empty⟩, read⟩
    · rintro ⟨filled, read⟩
      exact ⟨_, read, (object?_eq_obj_iff _ _ _).mpr ⟨rfl, fun hidden => filled hidden.2⟩⟩
  | _ =>
    rw [ofJson?_of_plain (by simp)] at made
    obtain ⟨x, value, rfl⟩ := Option.map_eq_some_iff.mp made
    rw [and_iff_left (shows_of_plain (by simp)), ← Value.toJson?_ofJson?_iff sorted value, read?, shown?]
    simp

end Item

/-! ## What has no item -/

/-- An array with `null` in it. -/
def ListsNull (v : Json) : Prop :=
  ∃ items, Json.Part (.arr items) v ∧ Json.null ∈ items

theorem not_listsNull_null : ¬ ListsNull .null := by
  rintro ⟨items, inside, -⟩
  cases inside

theorem listsNull_arr (items : List Json) :
    ListsNull (.arr items) ↔ ∃ v ∈ items, v = .null ∨ ListsNull v := by
  constructor
  · rintro ⟨inner, inside, listed⟩
    cases inside with
    | self => exact ⟨.null, listed, .inl rfl⟩
    | item member inside => exact ⟨_, member, .inr ⟨inner, inside, listed⟩⟩
  · rintro ⟨v, member, rfl | ⟨inner, inside, listed⟩⟩
    · exact ⟨items, .self, member⟩
    · exact ⟨inner, .item member inside, listed⟩

theorem listsNull_obj (m : Members) : ListsNull (.obj m) ↔ ∃ p ∈ m, ListsNull p.2 := by
  constructor
  · rintro ⟨inner, inside, listed⟩
    cases inside with
    | value member inside => exact ⟨_, member, inner, inside, listed⟩
  · rintro ⟨p, member, inner, inside, listed⟩
    exact ⟨inner, .value member inside, listed⟩

namespace Value

theorem ofItems?_eq_none_iff (items : List Json) :
    ofItems? items = none ↔ ∃ v ∈ items, ofJson? v = none := by
  induction items with
  | nil => simp [ofItems?]
  | cons v rest ih =>
    simp only [ofItems?, List.exists_mem_cons_iff, ← ih]
    cases ofJson? v <;> cases ofItems? rest <;> simp

theorem ofMembers?_eq_none_iff (m : Members) :
    ofMembers? m = none ↔ ∃ p ∈ m, p.2 ≠ .null ∧ ofJson? p.2 = none := by
  induction m with
  | nil => simp [ofMembers?]
  | cons head rest ih =>
    obtain ⟨name, v⟩ := head
    by_cases absent : v = .null
    · subst absent
      simpa [ofMembers?, List.exists_mem_cons_iff] using ih
    · rw [ofMembers?_cons name absent, List.exists_mem_cons_iff, ← ih]
      cases ofJson? v <;> cases ofMembers? rest <;> simp [absent]

theorem ofJson?_eq_none_iff (v : Json) : ofJson? v = none ↔ v = .null ∨ ListsNull v := by
  induction v using Json.induct with
  | null => simp [ofJson?]
  | arr items ih =>
    rw [ofJson?, Option.map_eq_none_iff, ofItems?_eq_none_iff, listsNull_arr]
    simp only [reduceCtorEq, false_or]
    exact exists_congr fun v => and_congr_right fun member => ih v member
  | obj m ih =>
    rw [ofJson?, Option.map_eq_none_iff, ofMembers?_eq_none_iff, listsNull_obj]
    simp only [reduceCtorEq, false_or]
    refine exists_congr fun p => and_congr_right fun member => ?_
    refine (and_congr_right fun _ => ih p member).trans ?_
    constructor
    · rintro ⟨present, absent | listed⟩
      · exact absurd absent present
      · exact listed
    · intro listed
      exact ⟨fun absent => not_listsNull_null (absent ▸ listed), .inr listed⟩
  | _ =>
    simp only [ofJson?, reduceCtorEq, false_or, false_iff]
    rintro ⟨items, inside, -⟩
    cases inside

end Value

/-- Only `null` and values with `null` in an array have no item. -/
theorem Item.ofJson?_eq_none_iff (v : Json) : ofJson? v = none ↔ v = .null ∨ ListsNull v := by
  rw [← Value.ofJson?_eq_none_iff]
  induction v using Json.induct with
  | obj m ih =>
    rw [ofJson?, Value.ofJson?, Option.map_eq_none_iff, Option.map_eq_none_iff]
    induction m with
    | nil => simp [ofMembers?, Value.ofMembers?]
    | cons head rest later =>
      obtain ⟨name, v⟩ := head
      have below := later fun p member => ih p (List.mem_cons_of_mem _ member)
      by_cases absent : v = .null
      · subst absent
        exact below
      · have first := ih (name, v) List.mem_cons_self
        rw [ofMembers?_cons name absent, Value.ofMembers?_cons name absent]
        revert first below
        cases ofJson? v <;> cases Value.ofJson? v <;> cases ofMembers? rest <;>
          cases Value.ofMembers? rest <;> simp
  | _ => rw [ofJson?_of_plain (by simp), Option.map_eq_none_iff]

/-! ## Values in a document -/

/-- Between braces no table is left out, so that only the numbers matter. -/
theorem Entries.read?_leaf_iff {v : Json} (sorted : v.sorted = v) {i : Item} (made : Item.ofJson? v = some i)
    (entries : Entries) (path : List String) :
    (leaf i false entries path).read? = some (some v.withoutNulls) ↔
      Fits v ∧ (Shows v ∨ entries.throughBraces path) := by
  rw [leaf, Bool.false_or]
  cases entries.throughBraces path with
  | true => simpa using Item.read?_inlined_iff sorted made
  | false => simpa using Item.read?_ofJson?_iff sorted made

/-- A value that any document keeps as it is. -/
structure Storable (v : Json) : Prop where
  filled : ∀ x, Json.Part x v → x ≠ .null ∧ x ≠ .obj []
  fits : Fits v

namespace Storable

variable {v : Json}

theorem withoutNulls_eq (storable : Storable v) : v.withoutNulls = v :=
  Json.withoutNulls_eq fun x inside => (storable.filled x inside).1

theorem shows (storable : Storable v) : Shows v := by
  intro branch
  rw [storable.withoutNulls_eq] at branch
  exact (storable.filled _ branch.part).2 rfl

theorem exists_item (storable : Storable v) : ∃ i, Item.ofJson? v = some i := by
  refine Option.ne_none_iff_exists'.mp fun nothing => ?_
  rcases (Item.ofJson?_eq_none_iff v).mp nothing with rfl | ⟨items, inside, listed⟩
  · exact (storable.filled _ .self).1 rfl
  · exact (storable.filled _ (inside.trans (.item listed .self))).1 rfl

end Storable

end LinterClient.Toml
