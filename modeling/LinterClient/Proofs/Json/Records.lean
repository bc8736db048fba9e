import LinterClient.Json.Decode
import LinterClient.Proofs.Json.Order

/-!
Records read from objects.

What a record is built of has been checked before, member by member. So whether an object is a record is
known by what `get?` finds for each of its fields, and what is written of it is the object again if the object
has no other members.
-/

namespace LinterClient.Json

theorem Members.get?_of_mem {m : Members} (ordered : m.Ordered) {p : String × Json} (member : p ∈ m) : m.get? p.1 = some p.2 := by
  induction m with
  | nil => cases member
  | cons head rest ih =>
    have parts := List.pairwise_cons.mp ordered
    rw [get?_cons]
    rcases List.mem_cons.mp member with rfl | member
    · exact if_pos rfl
    · rw [if_neg (parts.1 p member).ne', ih parts.2 member]

/-- Members that were written are all members of an object if it has no other names. -/
theorem ofMembers_eq_iff {m written : Members} (ordered : m.Ordered) (distinct : (written.map (·.1)).Nodup)
    (found : ∀ p ∈ written, m.get? p.1 = some p.2) :
    ofMembers written = .obj m ↔ ∀ p ∈ m, p.1 ∈ written.map (·.1) := by
  rw [ofMembers, Json.obj.injEq]
  constructor
  · rintro rfl p member
    exact List.mem_map_of_mem (Members.mem_sorted member)
  · intro inside
    apply (Members.ordered_sorted written).ext ordered
    intro key
    rw [Members.get?_sorted_of_nodup distinct]
    cases own : Members.get? written key with
    | some value => exact (found _ (Members.mem_of_get? own)).symm
    | none =>
      cases other : m.get? key with
      | none => rfl
      | some value =>
        have named := inside _ (Members.mem_of_get? other)
        rw [← lookup_isSome_iff, ← Members.get?, own] at named
        cases named

namespace Fields

variable {α β γ : Type} {m : Members} {type : String}

/-- What is built was checked. -/
def Checks (f : Fields α) : Prop :=
  ∀ m a, f.build m = .ok a → ∀ r ∈ f.rules, ∀ v, Members.get? m r.name = some v → r.check v = .ok ()

theorem checkMembers_ok {rules : List FieldRule}
    (checked : ∀ p ∈ m, ∀ r ∈ rules, r.name = p.1 → r.check p.2 = .ok ()) : checkMembers rules m = .ok () := by
  induction m with
  | nil => rfl
  | cons p m ih =>
    obtain ⟨key, value⟩ := p
    have later := ih fun p member => checked p (List.mem_cons_of_mem _ member)
    simp only [checkMembers]
    cases found : rules.find? fun r => r.name = key with
    | none => exact later
    | some r =>
      have named : r.name = key := by simpa using List.find?_some found
      have own := checked (key, value) List.mem_cons_self r (List.mem_of_find?_eq_some found) named
      simp only at own
      simp only [own]
      exact later

/-- An object is read as a record iff the record is built of its members. -/
theorem decodeObject_eq_ok_iff {f : Fields α} (checks : f.Checks) (ordered : m.Ordered) {a : α} :
    f.decodeObject type (.obj m) = .ok a ↔ f.build m = .ok a := by
  rw [decodeObject]
  constructor
  · intro read
    cases checked : checkMembers f.rules m with
    | error e =>
      rw [checked] at read
      cases read
    | ok =>
      rw [checked] at read
      exact read
  · intro built
    have checked : checkMembers f.rules m = .ok () := by
      apply checkMembers_ok
      intro p member r rule named
      exact checks m a built r rule p.2 (by rw [named, Members.get?_of_mem ordered member])
    rw [checked]
    exact built

theorem decodeObject_eq_error {f : Fields α} (checks : f.Checks) (ordered : m.Ordered)
    (refused : ∀ a, f.build m ≠ .ok a) : ∃ e, f.decodeObject type (.obj m) = .error e := by
  cases read : f.decodeObject type (.obj m) with
  | error e => exact ⟨e, rfl⟩
  | ok a => exact absurd ((decodeObject_eq_ok_iff checks ordered).mp read) (refused a)

/-! ## Fields one by one -/

theorem build_map (mk : α → β) (x : Fields α) {b : β} :
    (mk <$> x).build m = .ok b ↔ ∃ a, x.build m = .ok a ∧ b = mk a := by
  have unfolded : (mk <$> x).build m = x.build m >>= fun a => .ok (mk a) := rfl
  rw [unfolded]
  cases x.build m with
  | error e => simp [bind, Except.bind]
  | ok a => simp [bind, Except.bind, eq_comm]

theorem build_seq (f : Fields (α → β)) (x : Fields α) {b : β} :
    (f <*> x).build m = .ok b ↔ ∃ g a, f.build m = .ok g ∧ x.build m = .ok a ∧ b = g a := by
  have unfolded : (f <*> x).build m = f.build m >>= fun g => x.build m >>= fun a => .ok (g a) := rfl
  rw [unfolded]
  cases f.build m with
  | error e => simp [bind, Except.bind]
  | ok g =>
    cases x.build m with
    | error e => simp [bind, Except.bind]
    | ok a => simp [bind, Except.bind, eq_comm]

theorem Checks.map {x : Fields α} (checks : x.Checks) (mk : α → β) : (mk <$> x).Checks := by
  intro m b built
  obtain ⟨a, one, -⟩ := (build_map mk x).mp built
  exact checks m a one

theorem Checks.seq {f : Fields (α → β)} {x : Fields α} (first : f.Checks) (second : x.Checks) :
    (f <*> x).Checks := by
  intro m b built r rule
  obtain ⟨g, a, one, two, -⟩ := (build_seq f x).mp built
  rcases List.mem_append.mp rule with rule | rule
  · exact first m g one r rule
  · exact second m a two r rule

theorem checkWith_ok {d : Decoder α} {v : Json} {a : α} (read : d v = .ok a) : checkWith d v = .ok () := by
  rw [checkWith, read]
  rfl

theorem build_required (name : String) (d : Decoder α) {a : α} :
    (required name d).build m = .ok a ↔ ∃ v, m.get? name = some v ∧ d v = .ok a := by
  simp only [required]
  cases m.get? name <;> simp

theorem checks_required (name : String) (d : Decoder α) : (required name d).Checks := by
  intro m a built r rule v found
  obtain ⟨w, own, read⟩ := (build_required name d).mp built
  rw [List.mem_singleton.mp rule] at found ⊢
  cases own.symm.trans found
  exact checkWith_ok read

theorem nullable_of_ne {v : Json} (filled : v ≠ .null) (d : Decoder α) :
    Decoder.nullable d v = (d v).map some := by
  cases v with
  | null => exact absurd rfl filled
  | _ => rfl

theorem build_optional (name : String) (d : Decoder α) {a : Option α} :
    (optional name d).build m = .ok a ↔
      (a = none ∧ (m.get? name = none ∨ m.get? name = some .null)) ∨
        ∃ v b, m.get? name = some v ∧ v ≠ .null ∧ d v = .ok b ∧ a = some b := by
  simp only [optional, withDefault]
  cases found : m.get? name with
  | none => simp [eq_comm]
  | some v =>
    by_cases empty : v = .null
    · subst empty
      simp [Decoder.nullable, eq_comm]
    · simp only [nullable_of_ne empty]
      cases read : d v <;> simp [Except.map, empty, read, eq_comm]

theorem checks_optional (name : String) (d : Decoder α) : (optional name d).Checks := by
  intro m a built r rule v found
  rw [List.mem_singleton.mp rule] at found ⊢
  simp only [optional, withDefault, found] at built
  exact checkWith_ok built

end Fields

end LinterClient.Json
