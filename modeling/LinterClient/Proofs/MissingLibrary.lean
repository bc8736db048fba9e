import LinterClient.Proofs.Json.Order
import LinterClient.Session.Answering

/-!
What is known of the areas in which the user was told that the library is missing.

An area counts as known if it is listed, whatever its flag says. What is known is kept as JSON and read back
each time; that loses nothing, though a value that cannot be read knows nothing.
-/

namespace LinterClient

open Json (Members)

namespace MissingLibrary

/-- An area in which the user is told: a folder, by its URL, or outside every folder. -/
abbrev Area := Option String

/-- The area that a document in a folder belongs to. -/
def areaIn (folder : Option WorkspaceFolder) : Area :=
  folder.map (·.uri.text)

/-- Whether an area is known. -/
def Knows (m : MissingLibrary) : Area → Prop
  | some uri => uri ∈ m.folders.map (·.1)
  | none => m.outside = true

instance (m : MissingLibrary) : DecidablePred m.Knows
  | some uri => inferInstanceAs (Decidable (uri ∈ m.folders.map (·.1)))
  | none => inferInstanceAs (Decidable (m.outside = true))

theorem tell_new (m : MissingLibrary) (folder : Option WorkspaceFolder) :
    (m.tell folder).1 = true ↔ ¬ m.Knows (areaIn folder) := by
  cases folder with
  | none => simp [tell, Knows, areaIn]
  | some f =>
    simp only [tell, Knows, areaIn, Option.map_some, ← lookup_isSome_iff]
    cases m.folders.lookup f.uri.text <;> simp

theorem knows_tell (m : MissingLibrary) (folder : Option WorkspaceFolder) (c : Area) :
    (m.tell folder).2.Knows c ↔ c = areaIn folder ∨ m.Knows c := by
  cases folder with
  | none =>
    cases c with
    | none => simp [tell, Knows, areaIn]
    | some uri => simp [tell, Knows, areaIn]
  | some f =>
    cases c with
    | none => simp [tell, Knows, areaIn]
    | some uri =>
      simp only [tell, Knows, areaIn, Option.map_some, ← lookup_isSome_iff, lookup_cons_if, lookup_filter_ne,
        Option.some.injEq]
      by_cases same : uri = f.uri.text <;> simp [same]

/-! ## As JSON -/

/-- The flag of a folder. -/
def flag (p : String × Json) : Except Json.DecodeError (String × Bool) := do
  .ok (p.1, ← Json.Decoder.bool p.2)

theorem decode_obj {outside : Bool} {w : Members} {l : List (String × Bool)} (flags : w.mapM flag = .ok l) :
    decode (.obj [("global", .bool outside), ("workspaces", .obj w)]) = .ok ⟨outside, l⟩ := by
  have parts : decode (.obj [("global", .bool outside), ("workspaces", .obj w)]) =
      (((w.mapM flag).map fun _ => ()) >>= fun _ => .ok ()) >>= fun _ =>
        (w.mapM flag) >>= fun l => .ok ⟨outside, l⟩ := rfl
  rw [parts, flags]
  rfl

theorem flags_ok {w : Members} (bools : ∀ p ∈ w, ∃ b, p.2 = .bool b) :
    ∃ l, w.mapM flag = .ok l ∧ l.map (·.1) = w.map (·.1) := by
  induction w with
  | nil => exact ⟨[], rfl, rfl⟩
  | cons head rest ih =>
    obtain ⟨name, v⟩ := head
    obtain ⟨b, rfl⟩ : ∃ b, v = .bool b := bools (name, v) List.mem_cons_self
    obtain ⟨l, flags, names⟩ := ih fun p member => bools p (List.mem_cons_of_mem _ member)
    refine ⟨(name, b) :: l, ?_, by simp [names]⟩
    rw [List.mapM_cons, flags]
    rfl

/-- The folders as they are written. -/
def members (m : MissingLibrary) : Members :=
  m.folders.map fun p => (p.1, .bool p.2)

theorem toJson_eq (m : MissingLibrary) :
    m.toJson = .obj [("global", .bool m.outside), ("workspaces", .obj m.members.sorted)] := by
  have sorted : Members.sorted [("global", .bool m.outside), ("workspaces", .ofMembers m.members)] =
      [("global", .bool m.outside), ("workspaces", .ofMembers m.members)] := by
    simp [Members.sorted, Members.insert, show ¬ "workspaces" < "global" by decide]
  exact congrArg Json.obj sorted

/-- What was noted is known when it is read back. -/
theorem decode_toJson (m : MissingLibrary) :
    ∃ read, decode m.toJson = .ok read ∧ ∀ c, read.Knows c ↔ m.Knows c := by
  have bools : ∀ p ∈ m.members.sorted, ∃ b, p.2 = .bool b := by
    intro p member
    obtain ⟨⟨name, b⟩, -, rfl⟩ := List.mem_map.mp (Members.mem_sorted member)
    exact ⟨b, rfl⟩
  obtain ⟨l, flags, names⟩ := flags_ok bools
  refine ⟨⟨m.outside, l⟩, by rw [toJson_eq, decode_obj flags], fun c => ?_⟩
  cases c with
  | none => rfl
  | some uri =>
    rw [Knows, names, Members.mem_names_sorted, members, List.map_map]
    rfl

theorem knows_ofMemento_set (memento : Memento) (m : MissingLibrary) (c : Area) :
    (ofMemento (memento.set key m.toJson)).Knows c ↔ m.Knows c := by
  obtain ⟨read, decoded, same⟩ := decode_toJson m
  have found : (memento.set key m.toJson).get? key = some m.toJson := by
    rw [toJson_eq]
    exact Members.get?_insert_self _ _ _
  rw [ofMemento, found, Option.map_some, decoded]
  exact same c

end MissingLibrary

end LinterClient
