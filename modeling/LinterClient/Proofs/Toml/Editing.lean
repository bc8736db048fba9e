import LinterClient.Proofs.KeyPath
import LinterClient.Proofs.Toml.Reading
import LinterClient.Toml.Edit

/-!
Edits of a document beside writes to its settings.

Both walk down the same path, one through tables of several kinds, the other through objects. Setting an
item is setting what the item is read as. Removing an item may leave tables on the way that no longer show;
what is not above it is as after removing it from the settings.
-/

namespace LinterClient

open Json (Members)

/-! ## Steps of a path -/

namespace KeyPath

theorem assign_ne_nil (m : Members) (v : Json) {path : List String} (filled : path ≠ []) :
    assign m v path ≠ [] := by
  intro empty
  have found := lookup_assign_self m v filled
  rw [empty, lookup_nil] at found
  cases found

/-- A write to one name decides that name only. -/
theorem get?_update (m : Members) (o : Option Json) (name key : String) :
    Members.get? (update m o [name]) key = if key = name then o else Members.get? m key := by
  cases o with
  | none => exact Members.get?_erase m name key
  | some v => exact Members.get?_insert name key v m

theorem remove_nil (path : List String) : remove [] path = [] := by
  rcases path with _ | ⟨segment, _ | ⟨next, rest⟩⟩ <;> rfl

theorem ordered_update {m : Members} (ordered : m.Ordered) (o : Option Json) (name : String) :
    (update m o [name]).Ordered := by
  cases o with
  | none => exact ordered.erase name
  | some v => exact ordered.insert name v

end KeyPath

namespace Toml

/-! ## Putting an item under a name -/

namespace Entries

variable {entries new old : Entries} {name : String} {i : Item} {m : Members}

/-- Entries that have an item under a name and are otherwise as before. -/
structure Puts (entries : Entries) (name : String) (i : Item) (new : Entries) : Prop where
  distinct : new.Distinct
  get? : ∀ key, new.get? key = if key = name then some i else entries.get? key

theorem puts_map (distinct : entries.Distinct) {j : Item} (found : entries.get? name = some j)
    {f : Key × Item → Key × Item} (names : ∀ e, (f e).1.name = e.1.name)
    (items : ∀ e, (f e).2 = if e.1.name = name then i else e.2) : entries.Puts name i (entries.map f) where
  distinct := distinct.map names
  get? key := by
    have through : get? (entries.map f) key =
        (entries.get? key).map fun old => if key = name then i else old := by
      clear distinct found
      induction entries with
      | nil => rfl
      | cons head rest ih =>
        obtain ⟨k, old⟩ := head
        have first : get? (f (k, old) :: rest.map f) key =
            if (f (k, old)).1.name = key then some (f (k, old)).2 else get? (rest.map f) key :=
          get?_cons _ _ _ _
        rw [List.map_cons, first, get?_cons, ih, names, items]
        by_cases here : k.name = key <;> simp [here]
    rw [through]
    by_cases here : key = name <;> simp [here, found]

theorem puts_replace (distinct : entries.Distinct) {j : Item} (found : entries.get? name = some j) (i : Item) :
    entries.Puts name i (entries.replace name i) :=
  puts_map distinct found (fun e => by split <;> rfl) (fun e => by split <;> rfl)

theorem puts_append (distinct : entries.Distinct) {k : Key} (fresh : entries.get? k.name = none) (i : Item) :
    entries.Puts k.name i (entries ++ [(k, i)]) where
  distinct := distinct.append i fresh
  get? key := by
    rw [get?_append, get?_cons, get?_nil]
    by_cases here : key = k.name
    · simp [here, fresh]
    · simp [here, Ne.symm here]

theorem puts_insert (distinct : entries.Distinct) (name : String) (i : Item) :
    entries.Puts name i (entries.insert name i) := by
  rw [insert]
  split
  · rename_i present
    obtain ⟨j, found⟩ := Option.isSome_iff_exists.mp present
    refine puts_map distinct found (fun e => ?_) (fun e => ?_) <;> split
    · exact Eq.symm ‹_›
    · rfl
    · rfl
    · rfl
  · rename_i absent
    have fresh : entries.get? (Key.new name).name = none := Option.not_isSome_iff_eq_none.mp absent
    exact puts_append distinct fresh i

theorem Puts.read? (puts : entries.Puts name i new) (key : String) :
    new.read? key = if key = name then i.read? else entries.read? key := by
  rw [Entries.read?, puts.get?]
  by_cases here : key = name
  · simp [here]
  · simp only [here, if_false, Entries.read?]

/-- The settings follow what the item is read as. -/
theorem Puts.members? (puts : entries.Puts name i new) (distinct : entries.Distinct)
    (before : entries.members? = some m) {o : Option Json} (item : i.read? = some o) :
    new.members? = some (KeyPath.update m o [name]) := by
  obtain ⟨ordered, found⟩ := (members?_eq_some_iff distinct m).mp before
  refine (members?_eq_some_iff puts.distinct _).mpr ⟨KeyPath.ordered_update ordered o name, fun key => ?_⟩
  rw [puts.read?, KeyPath.get?_update]
  split
  · exact item
  · exact found key

theorem Puts.read?_item (puts : entries.Puts name i new) (after : new.members? = some m) :
    i.read? = some (Members.get? m name) := by
  have found := ((members?_eq_some_iff puts.distinct m).mp after).2 name
  rwa [puts.read?, if_pos rfl] at found

theorem get?_erase (entries : Entries) (name key : String) :
    (entries.erase name).get? key = if key = name then none else entries.get? key := by
  induction entries with
  | nil => simp [erase]
  | cons head rest ih =>
    obtain ⟨k, i⟩ := head
    rw [erase] at ih ⊢
    by_cases gone : k.name = name
    · rw [List.filter_cons_of_neg (by simpa using gone), ih, get?_cons, gone]
      by_cases here : key = name
      · simp [here]
      · simp [here, Ne.symm here]
    · rw [List.filter_cons_of_pos (by simpa using gone), get?_cons, get?_cons, ih]
      by_cases here : k.name = key
      · simp [here ▸ gone, here]
      · simp [here]

theorem members?_erase (distinct : entries.Distinct) (before : entries.members? = some m) (name : String) :
    (entries.erase name).members? = some (m.erase name) := by
  obtain ⟨ordered, found⟩ := (members?_eq_some_iff distinct m).mp before
  refine (members?_eq_some_iff (distinct.erase name) _).mpr ⟨ordered.erase name, fun key => ?_⟩
  rw [Entries.read?, get?_erase, Members.get?_erase]
  by_cases here : key = name
  · simp [here]
  · simp only [here, if_false]
    exact found key

end Entries

/-! ## Tables on the way -/

/-- The entries of a table of either kind. -/
def Item.entries? : Item → Option Entries
  | .inline entries _ _ => some entries
  | .table entries _ => some entries
  | .value _ _ _ => none
  | .tables _ => none

/-- Whether a table shows only as far as something is in it. -/
def Item.implied : Item → Bool
  | .inline _ braces _ => braces.dotted
  | .table _ heading => heading.form ≠ .header
  | .value _ _ _ => false
  | .tables _ => false

theorem Item.read?_of_entries {i : Item} {entries : Entries} (inside : i.entries? = some entries) :
    i.read? = entries.members?.map (object? i.implied) := by
  cases i with
  | value => cases inside
  | inline entries braces around =>
    cases inside
    exact read?_inline _ _ _
  | table entries heading =>
    cases inside
    exact read?_table _ _
  | tables => cases inside

/-- A table is read as an object with what is in it, or as nothing if that is nothing. -/
theorem Item.child_of_entries {i : Item} {entries : Entries} (inside : i.entries? = some entries)
    {m : Members} {name : String} (read : i.read? = some (Members.get? m name)) :
    entries.members? = some (KeyPath.child m name) := by
  rw [read?_of_entries inside, Option.map_eq_some_iff] at read
  obtain ⟨n, members, object⟩ := read
  rw [members, KeyPath.child, ← object, object?]
  by_cases hidden : i.implied ∧ n = []
  · rw [if_pos hidden, hidden.2]
  · rw [if_neg hidden]

/-- All else is read as no object. -/
theorem Item.Sound.child_of_plain {i : Item} (sound : i.Sound) (plain : i.entries? = none)
    {m : Members} {name : String} (read : i.read? = some (Members.get? m name)) :
    KeyPath.child m name = [] := by
  have object : ∀ n, Members.get? m name ≠ some (.obj n) := by
    intro n found
    rw [found] at read
    cases sound with
    | @value v _ _ noTable =>
      simp only [read?, shown?, Option.map_eq_some_iff, Option.some.injEq, exists_eq_right] at read
      cases v with
      | table members => exact noTable members rfl
      | int val =>
        simp only [Value.toJson?, Json.ofInt?] at read
        split at read <;> cases read
      | float val =>
        simp only [Value.toJson?] at read
        split at read <;> cases read
      | array items => simp [Value.toJson?] at read
      | _ => cases read
    | inline => cases plain
    | table => cases plain
    | tables => simp [read?, shown?, Value.toJson?] at read
  rw [KeyPath.child]
  split
  · rename_i n found
    exact absurd found (object n)
  · rfl

/-! ## Setting -/

namespace Entries

/-- Whether a path leads through a table between braces. -/
def throughBraces (entries : Entries) : List String → Bool
  | [] | [_] => false
  | name :: path =>
    match entries.get? name with
    | some (.inline _ _ _) => true
    | some (.table old _) => throughBraces old path
    | _ => false

/-- The item that an assignment leaves at the end of a path. -/
def leaf (item : Item) (braced : Bool) (entries : Entries) (path : List String) : Item :=
  if braced || entries.throughBraces path then item.inlined else item

theorem throughBraces_nil (path : List String) : throughBraces [] path = false := by
  rcases path with _ | ⟨name, _ | _⟩ <;> rfl

theorem members?_nil : members? [] = some [] := rfl

/-- How an assignment goes on below a name: in which entries, and in which table they end up. -/
structure Descends (item : Item) (braced : Bool) (entries : Entries) (name : String) (path : List String)
    (braced' : Bool) (old : Entries) (table : Item) : Prop where
  sound : old.Sound
  leaf : leaf item braced entries (name :: path) = leaf item braced' old path
  inside : table.entries? = some (assign item braced' old path)
  puts : entries.Puts name table (entries.assign item braced (name :: path))
  below : ∀ m, entries.members? = some m → old.members? = some (KeyPath.child m name)

section Setting

variable (item : Item) (braced : Bool) {entries : Entries} {name : String} {path : List String}

theorem assign_single : entries.assign item braced [name] =
    entries.insert name (leaf item braced entries [name]) := by
  simp only [assign, leaf, throughBraces, Bool.or_false]

theorem descends_anew (shut : entries.throughBraces (name :: path) = false)
    (puts : entries.Puts name (newTable braced (assign item braced [] path))
      (entries.assign item braced (name :: path)))
    (nothing : ∀ m, entries.members? = some m → KeyPath.child m name = []) :
    Descends item braced entries name path braced [] (newTable braced (assign item braced [] path)) where
  sound := sound_nil
  leaf := by rw [leaf, leaf, shut, throughBraces_nil]
  inside := by
    rw [newTable]
    split <;> rfl
  puts := puts
  below m before := by rw [nothing m before, members?_nil]

/-- One step of an assignment goes on with the entries of a table at a name, or with none in a new table. -/
theorem assign_step (sound : entries.Sound) (filled : path ≠ []) :
    ∃ braced' old table, Descends item braced entries name path braced' old table := by
  obtain ⟨next, rest, rfl⟩ := List.exists_cons_of_ne_nil filled
  have read (m : Members) (before : entries.members? = some m) :
      entries.read? name = some (Members.get? m name) :=
    ((members?_eq_some_iff sound.distinct m).mp before).2 name
  cases found : entries.get? name with
  | none =>
    refine ⟨_, _, _, descends_anew item braced (by simp only [throughBraces, found]) ?_ fun m before => ?_⟩
    · simp only [assign, found]
      exact puts_append sound.distinct (k := .new name) found _
    · have absent := read m before
      rw [read?_of_get?_none found, Option.some.injEq] at absent
      rw [KeyPath.child, ← absent]
  | some i =>
    have itemSound := sound.get? found
    simp only [read?_of_get? found] at read
    have replaced (j : Item) : entries.Puts name j (entries.replace name j) :=
      puts_replace sound.distinct found j
    -- what is no table is replaced by a new one
    cases i with
    | value =>
      refine ⟨_, _, _, descends_anew item braced (by simp only [throughBraces, found]) ?_ fun m before => ?_⟩
      · simpa only [assign, found] using replaced _
      · exact itemSound.child_of_plain rfl (read m before)
    | tables =>
      refine ⟨_, _, _, descends_anew item braced (by simp only [throughBraces, found]) ?_ fun m before => ?_⟩
      · simpa only [assign, found] using replaced _
      · exact itemSound.child_of_plain rfl (read m before)
    | inline old braces around =>
      refine ⟨true, old, .inline (assign item true old (next :: rest)) braces around, ?_⟩
      exact
        { sound := Sound.of_inline itemSound
          leaf := by simp only [leaf, throughBraces, found, Bool.or_true, Bool.true_or]
          inside := rfl
          puts := by simpa only [assign, found] using replaced _
          below := fun m before => Item.child_of_entries rfl (read m before) }
    | table old heading =>
      refine ⟨braced, old, .table (assign item braced old (next :: rest)) heading, ?_⟩
      exact
        { sound := Sound.of_table itemSound
          leaf := by simp only [leaf, throughBraces, found]
          inside := rfl
          puts := by simpa only [assign, found] using replaced _
          below := fun m before => Item.child_of_entries rfl (read m before) }

/-- Setting an item that is read as a value is setting the value. -/
theorem members?_assign {v : Json} (sound : entries.Sound) (filled : path ≠ []) {m : Members}
    (before : entries.members? = some m) (last : (leaf item braced entries path).read? = some (some v)) :
    (entries.assign item braced path).members? = some (KeyPath.assign m v path) := by
  induction path generalizing entries braced m with
  | nil => exact absurd rfl filled
  | cons name path ih =>
    by_cases more : path = []
    · subst more
      rw [assign_single]
      exact (puts_insert sound.distinct name _).members? sound.distinct before last
    · obtain ⟨braced', old, table, step⟩ := assign_step item braced sound more
      have assigned := ih braced' step.sound more (step.below m before) (step.leaf ▸ last)
      have object : table.read? =
          some (some (.obj (KeyPath.assign (KeyPath.child m name) v path))) := by
        rw [Item.read?_of_entries step.inside, assigned, Option.map_some, object?,
          if_neg fun hidden => KeyPath.assign_ne_nil _ v more hidden.2]
      rw [step.puts.members? sound.distinct before object, KeyPath.assign_cons m v name more]
      rfl

/-- What the settings hold at a path after an assignment is what the item is read as. -/
theorem read?_leaf (sound : entries.Sound) (filled : path ≠ []) {m : Members}
    (after : (entries.assign item braced path).members? = some m) :
    (leaf item braced entries path).read? = some (KeyPath.lookup m path) := by
  induction path generalizing entries braced m with
  | nil => exact absurd rfl filled
  | cons name path ih =>
    by_cases more : path = []
    · subst more
      rw [assign_single] at after
      exact (puts_insert sound.distinct name _).read?_item after
    · obtain ⟨braced', old, table, step⟩ := assign_step item braced sound more
      have below := Item.child_of_entries step.inside (step.puts.read?_item after)
      rw [step.leaf, KeyPath.lookup_cons m name more]
      exact ih braced' step.sound more below

end Setting

/-! ## Removing -/

theorem child_update (implied : Bool) (n m : Members) (name : String) :
    KeyPath.child (KeyPath.update m (object? implied n) [name]) name = n := by
  rw [KeyPath.child, KeyPath.get?_update, if_pos rfl, object?]
  by_cases hidden : implied ∧ n = []
  · rw [if_pos hidden, hidden.2]
  · rw [if_neg hidden]

section Removing

variable {entries : Entries} {path : List String}

/-- One step of a removal goes on in the table at a name; without one nothing changes. -/
theorem remove_step (name : String) (sound : entries.Sound) (filled : path ≠ []) {m : Members}
    (before : entries.members? = some m) :
    (∃ (old : Entries) (table : Item), old.Sound ∧ table.entries? = some (old.remove path) ∧
      entries.Puts name table (entries.remove (name :: path)) ∧
      old.members? = some (KeyPath.child m name)) ∨
    (entries.remove (name :: path) = entries ∧ KeyPath.child m name = []) := by
  obtain ⟨next, rest, rfl⟩ := List.exists_cons_of_ne_nil filled
  have read := ((members?_eq_some_iff sound.distinct m).mp before).2 name
  cases found : entries.get? name with
  | none =>
    rw [read?_of_get?_none found, Option.some.injEq] at read
    exact .inr ⟨by simp only [remove, found], by rw [KeyPath.child, ← read]⟩
  | some i =>
    have itemSound := sound.get? found
    rw [read?_of_get? found] at read
    cases i with
    | value => exact .inr ⟨by simp only [remove, found], itemSound.child_of_plain rfl read⟩
    | tables => exact .inr ⟨by simp only [remove, found], itemSound.child_of_plain rfl read⟩
    | inline old braces around =>
      refine .inl ⟨old, .inline _ braces around, Sound.of_inline itemSound, rfl, ?_,
        Item.child_of_entries rfl read⟩
      simp only [remove, found]
      exact puts_replace sound.distinct found _
    | table old heading =>
      refine .inl ⟨old, .table _ heading, Sound.of_table itemSound, rfl, ?_,
        Item.child_of_entries rfl read⟩
      simp only [remove, found]
      exact puts_replace sound.distinct found _

/-- A removal leaves nothing at and below its path, and leaves alone what is apart from it. -/
theorem members?_remove (sound : entries.Sound) (filled : path ≠ []) {m : Members}
    (before : entries.members? = some m) :
    ∃ m', (entries.remove path).members? = some m' ∧
      (∀ other, KeyPath.Apart path other → KeyPath.lookup m' other = KeyPath.lookup m other) ∧
      ∀ other, path <+: other → KeyPath.lookup m' other = none := by
  induction path generalizing entries m with
  | nil => exact absurd rfl filled
  | cons name path ih =>
    by_cases more : path = []
    · subst more
      refine ⟨_, members?_erase sound.distinct before name, fun other apart => ?_, fun other begins => ?_⟩
      · exact KeyPath.lookup_remove_of_apart m apart
      · exact KeyPath.lookup_remove_of_prefix m filled begins
    · obtain ⟨old, table, oldSound, inside, puts, below⟩ | ⟨same, nothing⟩ :=
        remove_step name sound more before
      · obtain ⟨n, removed, kept, gone⟩ := ih oldSound more below
        have read : table.read? = some (object? table.implied n) := by
          rw [Item.read?_of_entries inside, removed, Option.map_some]
        refine ⟨_, puts.members? sound.distinct before read, fun other apart => ?_, fun other begins => ?_⟩
        · obtain ⟨first, rest, rfl⟩ := List.exists_cons_of_ne_nil apart.ne_nil
          by_cases here : first = name
          · subst here
            have apart' := (KeyPath.apart_cons first path rest).mp apart
            rw [KeyPath.lookup_cons _ _ apart'.ne_nil, KeyPath.lookup_cons _ _ apart'.ne_nil, child_update]
            exact kept rest apart'
          · exact KeyPath.lookup_congr rest (by rw [KeyPath.get?_update, if_neg here])
        · obtain ⟨rest, rfl⟩ := begins
          have below : path ++ rest ≠ [] := List.append_ne_nil_of_left_ne_nil more _
          rw [List.cons_append, KeyPath.lookup_cons _ _ below, child_update]
          exact gone _ (List.prefix_append _ _)
      · refine ⟨m, by rw [same, before], fun other apart => rfl, fun other begins => ?_⟩
        obtain ⟨rest, rfl⟩ := begins
        exact KeyPath.lookup_of_child_nil nothing (List.append_ne_nil_of_left_ne_nil more _)

end Removing

end Entries

end Toml

end LinterClient
