import LinterClient.Proofs.Json.Records
import LinterClient.Settings.ValidateEntry
import LinterClient.Settings.WorkingDirectory

/-!
Entries of lists that are written back.

An entry that is no record of a known shape is kept as it is. A record is read as the first shape that it
fits, and what is written of it has the members of that shape only.
-/

namespace LinterClient.Settings

open LinterClient.Json

/-! ## Shapes of records -/

/-- What a member of a record may be. -/
inductive MemberKind where
  | text
  | flag
  /-- A flag, nothing, or `null`. -/
  | optionalFlag
  | mode

/-- Whether a mode is written as a value: its name, or the name with nothing. -/
def isMode : Json → Bool
  | .str s | .obj [(s, .null)] => s = "auto" || s = "location"
  | _ => false

def MemberKind.accepts : MemberKind → Option Json → Bool
  | .text, some (.str _) => true
  | .flag, some (.bool _) => true
  | .optionalFlag, none => true
  | .optionalFlag, some .null => true
  | .optionalFlag, some (.bool _) => true
  | .mode, some v => isMode v
  | _, _ => false

/-- The fields of a record, by their names. -/
abbrev Shape := List (String × MemberKind)

namespace Shape

def names (shape : Shape) : List String :=
  shape.map (·.1)

def fits (shape : Shape) (m : Members) : Bool :=
  shape.all fun field => field.2.accepts (m.get? field.1)

/-- Whether a value is written as it is read. -/
def isPlain : Json → Bool
  | .str _ | .bool _ => true
  | _ => false

/-- Whether a record has nothing but fields of the shape, each with a text or a boolean. -/
def Holds (shape : Shape) (m : Members) : Prop :=
  ∀ p ∈ m, p.1 ∈ shape.names ∧ isPlain p.2 = true

end Shape

/-- A value is no record of a shape, or the first shape that it fits holds all of it. -/
def Held (shapes : List Shape) (v : Json) : Prop :=
  ∀ m, v = .obj m → ∀ shape ∈ shapes.find? (·.fits m), shape.Holds m

/-- The one shape of an entry of the list of languages. -/
def validateShapes : List Shape :=
  [[("language", .text), ("autoFix", .optionalFlag)]]

/-- The shapes of an entry of the list of working directories, in the order in which they are tried. -/
def directoryShapes : List Shape :=
  [[("directory", .text), ("changeProcessCWD", .flag)],
    [("directory", .text), ("!cwd", .optionalFlag)],
    [("pattern", .text), ("!cwd", .optionalFlag)],
    [("mode", .mode)]]

/-! ## Records of one shape -/

/-- A decoder reads the records of a shape, and what is written of one is the record again if the shape holds
all of it. -/
structure Describes {α : Type} (shape : Shape) (decoder : Decoder α) (toJson : α → Json) : Prop where
  refuses : ∀ m : Members, m.Ordered → shape.fits m = false → ∃ e, decoder (.obj m) = .error e
  reads : ∀ m : Members, m.Ordered → shape.fits m = true →
    ∃ a, decoder (.obj m) = .ok a ∧ (toJson a = .obj m ↔ shape.Holds m)

theorem Describes.of_build {α : Type} {shape : Shape} {f : Fields α} {toJson : α → Json} (type : String)
    (checks : f.Checks) (fits : ∀ m a, f.build m = .ok a → shape.fits m = true)
    (built : ∀ m : Members, m.Ordered → shape.fits m = true →
      ∃ a, f.build m = .ok a ∧ (toJson a = .obj m ↔ shape.Holds m)) :
    Describes shape (f.decodeObject type) toJson where
  refuses m ordered misfit := by
    apply Fields.decodeObject_eq_error checks ordered
    intro a one
    rw [fits m a one] at misfit
    cases misfit
  reads m ordered fit := by
    obtain ⟨a, one, same⟩ := built m ordered fit
    exact ⟨a, (Fields.decodeObject_eq_ok_iff checks ordered).mpr one, same⟩

theorem firstOf_describes {α : Type} {shapes : List Shape} {decoders : List (Decoder α)} {toJson : α → Json}
    (type : String) (each : List.Forall₂ (Describes · · toJson) shapes decoders) {m : Members}
    (ordered : m.Ordered) :
    (shapes.find? (·.fits m) = none ∧ ∃ e, Decoder.firstOf type decoders (.obj m) = .error e) ∨
      ∃ shape a, shapes.find? (·.fits m) = some shape ∧ Decoder.firstOf type decoders (.obj m) = .ok a ∧
        (toJson a = .obj m ↔ shape.Holds m) := by
  induction each with
  | nil => exact Or.inl ⟨rfl, _, rfl⟩
  | @cons shape decoder shapes decoders first rest ih =>
    rw [List.find?_cons, Decoder.firstOf]
    cases fits : shape.fits m with
    | true =>
      obtain ⟨a, read, same⟩ := first.reads m ordered fits
      exact Or.inr ⟨shape, a, rfl, by rw [read], same⟩
    | false =>
      obtain ⟨e, refused⟩ := first.refuses m ordered fits
      rw [refused]
      exact ih

/-- What is written of a record is the record again just if the shape holds all of it, if all that is written
are plain members of it, and what else it has of the shape is not plain. -/
theorem ofMembers_eq_iff_holds {shape : Shape} {m written : Members} (ordered : m.Ordered)
    (distinct : (written.map (·.1)).Nodup)
    (found : ∀ p ∈ written, p.1 ∈ shape.names ∧ Shape.isPlain p.2 = true ∧ m.get? p.1 = some p.2)
    (other : ∀ name ∈ shape.names, name ∈ written.map (·.1) ∨ ∀ v, m.get? name = some v → Shape.isPlain v = false) :
    ofMembers written = .obj m ↔ shape.Holds m := by
  rw [ofMembers_eq_iff ordered distinct fun p member => (found p member).2.2]
  apply forall₂_congr
  intro p member
  have own := Members.get?_of_mem ordered member
  constructor
  · intro inside
    obtain ⟨q, among, name⟩ := List.mem_map.mp inside
    have parts := found q among
    rw [name, own] at parts
    rw [Option.some.inj parts.2.2]
    exact ⟨parts.1, parts.2.1⟩
  · rintro ⟨named, plain⟩
    rcases other p.1 named with inside | bare
    · exact inside
    · rw [bare p.2 own] at plain
      cases plain

/-! ## Records of texts and flags -/

theorem string_eq_ok {v : Json} {s : String} : Decoder.string v = .ok s ↔ v = .str s := by
  cases v <;> simp [Decoder.string]

theorem bool_eq_ok {v : Json} {b : Bool} : Decoder.bool v = .ok b ↔ v = .bool b := by
  cases v <;> simp [Decoder.bool]

theorem accepts_text {found : Option Json} : MemberKind.text.accepts found = true ↔ ∃ s, found = some (.str s) := by
  cases found with
  | none => simp [MemberKind.accepts]
  | some v => cases v <;> simp [MemberKind.accepts]

theorem accepts_flag {found : Option Json} : MemberKind.flag.accepts found = true ↔ ∃ b, found = some (.bool b) := by
  cases found with
  | none => simp [MemberKind.accepts]
  | some v => cases v <;> simp [MemberKind.accepts]

theorem accepts_optionalFlag {found : Option Json} :
    MemberKind.optionalFlag.accepts found = true ↔
      (found = none ∨ found = some .null) ∨ ∃ b, found = some (.bool b) := by
  cases found with
  | none => simp [MemberKind.accepts]
  | some v => cases v <;> simp [MemberKind.accepts]

theorem fits_pair {one two : String} {first second : MemberKind} {m : Members} :
    Shape.fits [(one, first), (two, second)] m = true ↔
      first.accepts (m.get? one) = true ∧ second.accepts (m.get? two) = true := by
  simp [Shape.fits]

section Records

variable {α β : Type} {m : Members} {mk : String → β → α} {toJson : α → Json} {one two : String}

theorem build_text {s : String} : (Fields.required one .string).build m = .ok s ↔ m.get? one = some (.str s) := by
  simp [Fields.build_required, string_eq_ok]

theorem build_flag {b : Bool} : (Fields.required one .bool).build m = .ok b ↔ m.get? one = some (.bool b) := by
  simp [Fields.build_required, bool_eq_ok]

theorem build_optionalFlag {b : Option Bool} :
    (Fields.optional one .bool).build m = .ok b ↔
      (b = none ∧ (m.get? one = none ∨ m.get? one = some .null)) ∨
        ∃ value, m.get? one = some (.bool value) ∧ b = some value := by
  rw [Fields.build_optional]
  apply or_congr_right
  constructor
  · rintro ⟨v, value, found, -, read, same⟩
    rw [bool_eq_ok.mp read] at found
    exact ⟨value, found, same⟩
  · rintro ⟨value, found, same⟩
    exact ⟨_, value, found, by simp, rfl, same⟩

/-- A record of a text and one more field is built of both. -/
theorem build_textAnd {x : Fields β} {a : α} :
    (mk <$> Fields.required one .string <*> x).build m = .ok a ↔
      ∃ s b, m.get? one = some (.str s) ∧ x.build m = .ok b ∧ a = mk s b := by
  rw [Fields.build_seq]
  constructor
  · rintro ⟨g, b, first, second, same⟩
    obtain ⟨s, text, rfl⟩ := (Fields.build_map _ _).mp first
    exact ⟨s, b, build_text.mp text, second, same⟩
  · rintro ⟨s, b, text, second, same⟩
    exact ⟨mk s, b, (Fields.build_map _ _).mpr ⟨s, build_text.mpr text, rfl⟩, second, same⟩

theorem checks_textAnd {x : Fields β} (checks : x.Checks) :
    (mk <$> Fields.required one .string <*> x).Checks :=
  ((Fields.checks_required _ _).map mk).seq checks

end Records

variable {α : Type} {toJson : α → Json} {one two : String}

theorem describes_flag {mk : String → Bool → α} (type : String) (different : one ≠ two)
    (written : ∀ s b, toJson (mk s b) = .ofMembers [(one, .str s), (two, .bool b)]) :
    Describes [(one, .text), (two, .flag)]
      (Fields.decodeObject (mk <$> .required one .string <*> .required two .bool) type) toJson := by
  apply Describes.of_build type (checks_textAnd (Fields.checks_required _ _))
  · intro m a built
    obtain ⟨s, b, text, flag, -⟩ := build_textAnd.mp built
    exact fits_pair.mpr ⟨accepts_text.mpr ⟨s, text⟩, accepts_flag.mpr ⟨b, build_flag.mp flag⟩⟩
  · intro m ordered fits
    obtain ⟨⟨s, text⟩, b, flag⟩ := (fits_pair.mp fits).imp accepts_text.mp accepts_flag.mp
    refine ⟨mk s b, build_textAnd.mpr ⟨s, b, text, build_flag.mpr flag, rfl⟩, ?_⟩
    rw [written]
    apply ofMembers_eq_iff_holds ordered
    · simp [different]
    · simp [Shape.names, Shape.isPlain, text, flag]
    · simp [Shape.names]

theorem describes_optional {mk : String → Option Bool → α} (type : String) (different : one ≠ two)
    (written : ∀ s b, toJson (mk s b) =
      .ofMembers ((one, .str s) :: (b.map fun b => [(two, Json.bool b)]).getD [])) :
    Describes [(one, .text), (two, .optionalFlag)]
      (Fields.decodeObject (mk <$> .required one .string <*> .optional two .bool) type) toJson := by
  apply Describes.of_build type (checks_textAnd (Fields.checks_optional _ _))
  · intro m a built
    obtain ⟨s, b, text, flag, -⟩ := build_textAnd.mp built
    apply fits_pair.mpr ⟨accepts_text.mpr ⟨s, text⟩, accepts_optionalFlag.mpr _⟩
    rcases build_optionalFlag.mp flag with ⟨-, absent⟩ | ⟨value, found, -⟩
    · exact Or.inl absent
    · exact Or.inr ⟨value, found⟩
  · intro m ordered fits
    obtain ⟨⟨s, text⟩, flag⟩ := (fits_pair.mp fits).imp_left accepts_text.mp
    rcases accepts_optionalFlag.mp flag with absent | ⟨b, flag⟩
    · have second := build_optionalFlag.mpr (Or.inl ⟨rfl, absent⟩)
      refine ⟨mk s none, build_textAnd.mpr ⟨s, none, text, second, rfl⟩, ?_⟩
      rw [written]
      apply ofMembers_eq_iff_holds ordered
      · simp
      · simp [Shape.names, Shape.isPlain, text]
      · rcases absent with absent | absent <;> simp [Shape.names, Shape.isPlain, absent]
    · have second := build_optionalFlag.mpr (Or.inr ⟨b, flag, rfl⟩)
      refine ⟨mk s (some b), build_textAnd.mpr ⟨s, some b, text, second, rfl⟩, ?_⟩
      rw [written]
      apply ofMembers_eq_iff_holds ordered
      · simp [different]
      · simp [Shape.names, Shape.isPlain, text, flag]
      · simp [Shape.names]

/-! ## Records of modes -/

theorem named_mode {s : String} {mode : WorkingDirectoryMode} :
    Decoder.variant.named WorkingDirectoryMode.variants s = .ok mode ↔ s = mode.name := by
  simp only [Decoder.variant.named, WorkingDirectoryMode.variants, lookup_cons_if, List.lookup_nil]
  by_cases auto : s = "auto"
  · subst auto
    cases mode <;> decide
  · by_cases location : s = "location"
    · subst location
      cases mode <;> decide
    · rw [if_neg auto, if_neg location]
      cases mode <;> simp [auto, location, WorkingDirectoryMode.name]

theorem decode_mode {v : Json} {mode : WorkingDirectoryMode} :
    WorkingDirectoryMode.decode v = .ok mode ↔ v = .str mode.name ∨ v = .obj [(mode.name, .null)] := by
  unfold WorkingDirectoryMode.decode Decoder.variant
  split
  · simp [named_mode]
  · simp [named_mode]
  · rename_i s w filled
    have other : w ≠ .null := filled
    cases Decoder.variant.named WorkingDirectoryMode.variants s <;> simp [bind, Except.bind, other]
  · rename_i m _ several
    have other : m ≠ [(mode.name, .null)] := several mode.name .null
    simp [other]
  · rename_i noText _ _ noObject
    have notText : v ≠ .str mode.name := noText _
    have notObject : v ≠ .obj [(mode.name, .null)] := noObject _
    simp [notText, notObject]

theorem isMode_iff {v : Json} :
    isMode v = true ↔ ∃ mode : WorkingDirectoryMode, v = .str mode.name ∨ v = .obj [(mode.name, .null)] := by
  have named {s : String} (known : s = "auto" ∨ s = "location") : ∃ mode : WorkingDirectoryMode, s = mode.name :=
    known.elim (fun auto => ⟨.auto, auto⟩) fun location => ⟨.location, location⟩
  constructor
  · intro written
    unfold isMode at written
    split at written
    · obtain ⟨mode, rfl⟩ := named (by simpa using written)
      exact ⟨mode, Or.inl rfl⟩
    · obtain ⟨mode, rfl⟩ := named (by simpa using written)
      exact ⟨mode, Or.inr rfl⟩
    · cases written
  · rintro ⟨mode, rfl | rfl⟩ <;> cases mode <;> rfl

theorem describes_mode : Describes [("mode", .mode)]
    (WorkingDirectoryEntry.modeFields.decodeObject "WorkingDirectoryEntry") WorkingDirectoryEntry.toJson := by
  have build {m : Members} {a : WorkingDirectoryEntry} : WorkingDirectoryEntry.modeFields.build m = .ok a ↔
      ∃ v mode, m.get? "mode" = some v ∧ WorkingDirectoryMode.decode v = .ok mode ∧ a = .mode mode := by
    rw [WorkingDirectoryEntry.modeFields, Fields.build_map]
    simp only [Fields.build_required]
    grind
  have fits {m : Members} : Shape.fits [("mode", .mode)] m = true ↔ ∃ v, m.get? "mode" = some v ∧ isMode v = true := by
    cases found : m.get? "mode" <;> simp [Shape.fits, MemberKind.accepts, found]
  apply Describes.of_build _ ((Fields.checks_required _ _).map _)
  · intro m a built
    obtain ⟨v, mode, found, read, -⟩ := build.mp built
    exact fits.mpr ⟨v, found, isMode_iff.mpr ⟨mode, decode_mode.mp read⟩⟩
  · intro m ordered fit
    obtain ⟨v, found, known⟩ := fits.mp fit
    obtain ⟨mode, spelled⟩ := isMode_iff.mp known
    refine ⟨.mode mode, build.mpr ⟨v, mode, found, decode_mode.mpr spelled, rfl⟩, ?_⟩
    rcases spelled with rfl | rfl
    · apply ofMembers_eq_iff_holds ordered
      · simp
      · simp [Shape.names, Shape.isPlain, WorkingDirectoryMode.toJson, found]
      · simp [Shape.names]
    · -- the name alone is written in place of the object
      constructor
      · intro same
        have written : m = [("mode", .str mode.name)] := (Json.obj.inj same).symm
        rw [written] at found
        simp [Members.get?_cons] at found
      · intro holds
        have plain := (holds _ (Members.mem_of_get? found)).2
        cases plain

/-! ## Values written back -/

theorem held_obj {shapes : List Shape} {m : Members} :
    Held shapes (.obj m) ↔ ∀ shape, shapes.find? (·.fits m) = some shape → shape.Holds m :=
  ⟨fun held => held m rfl, fun holds _ same => Json.obj.inj same ▸ holds⟩

theorem held_of_bare {shapes : List Shape} {v : Json} (bare : ∀ m, v ≠ .obj m) : Held shapes v :=
  fun m same => absurd same (bare m)

theorem describes_item : Describes [("language", .text), ("autoFix", .optionalFlag)]
    (ValidateEntry.itemFields.decodeObject "ValidateEntry") ValidateEntry.toJson :=
  describes_optional _ (by decide) fun _ b => by cases b <;> rfl

theorem ValidateEntry.toJson_ofJson {v : Json} (sorted : v.sorted = v) :
    (ofJson v).toJson = v ↔ Held validateShapes v := by
  cases v with
  | obj m =>
    have ordered := (ordered_of_sorted_obj sorted).1
    rw [held_obj, validateShapes, List.find?_cons]
    cases fits : Shape.fits [("language", .text), ("autoFix", .optionalFlag)] m with
    | true =>
      obtain ⟨e, read, same⟩ := describes_item.reads m ordered fits
      have chosen : ofJson (.obj m) = e := by simp only [ofJson, Decoder.string, read]
      rw [chosen, same]
      simp
    | false =>
      obtain ⟨error, refused⟩ := describes_item.refuses m ordered fits
      have chosen : ofJson (.obj m) = .unrecognized (.obj m) := by simp only [ofJson, Decoder.string, refused]
      rw [chosen]
      simp [toJson]
  | _ => exact iff_of_true rfl (held_of_bare (by simp))

theorem describes_directories : List.Forall₂ (Describes · · WorkingDirectoryEntry.toJson) directoryShapes
    ([WorkingDirectoryEntry.legacyFields, WorkingDirectoryEntry.directoryFields, WorkingDirectoryEntry.patternFields,
      WorkingDirectoryEntry.modeFields].map (·.decodeObject "WorkingDirectoryEntry")) :=
  .cons (describes_flag _ (by decide) fun _ _ => rfl) <|
    .cons (describes_optional _ (by decide) fun _ _ => rfl) <|
    .cons (describes_optional _ (by decide) fun _ _ => rfl) <|
    .cons describes_mode .nil

theorem WorkingDirectoryEntry.toJson_ofJson {v : Json} (sorted : v.sorted = v) :
    (ofJson v).toJson = v ↔ Held directoryShapes v := by
  cases v with
  | obj m =>
    rw [held_obj]
    rcases firstOf_describes "WorkingDirectoryEntry" describes_directories (ordered_of_sorted_obj sorted).1 with
      ⟨unfit, error, refused⟩ | ⟨shape, e, fit, read, same⟩
    · have chosen : ofJson (.obj m) = .unrecognized (.obj m) := by
        simp only [ofJson, decoders, Decoder.firstOf, Decoder.string, Except.map, refused]
      rw [chosen, unfit]
      simp [toJson]
    · have chosen : ofJson (.obj m) = e := by
        simp only [ofJson, decoders, Decoder.firstOf, Decoder.string, Except.map, read]
      rw [chosen, fit, same]
      simp
  | _ => exact iff_of_true rfl (held_of_bare (by simp))

/-! ## Entries read again -/

theorem ofMembers_pair {one two : String} {v w : Json} (less : two < one) :
    ofMembers [(one, v), (two, w)] = .obj [(two, w), (one, v)] := by
  simp [ofMembers, Members.sorted, Members.insert, less, less.ne]

theorem ValidateEntry.ofJson_toJson {e : ValidateEntry} (recognized : ∀ v, e ≠ .unrecognized v) :
    ofJson e.toJson = e := by
  cases e with
  | language name => rfl
  | item name autoFix =>
    cases autoFix with
    | none => rfl
    | some b =>
      rw [toJson, ofMembers_pair (by decide)]
      rfl
  | unrecognized v => exact absurd rfl (recognized v)

theorem WorkingDirectoryEntry.withNoCwd_some {name : String} (value : String) (b : Bool) (less : "!cwd" < name) :
    withNoCwd name value (some b) = .obj [("!cwd", .bool b), (name, .str value)] :=
  ofMembers_pair less

theorem WorkingDirectoryEntry.ofJson_toJson {e : WorkingDirectoryEntry} (recognized : ∀ v, e ≠ .unrecognized v) :
    ofJson e.toJson = e := by
  cases e with
  | path d => rfl
  | legacy d b =>
    rw [toJson, ofMembers_pair (by decide)]
    rfl
  | directory d noCwd =>
    cases noCwd with
    | none => rfl
    | some b =>
      rw [toJson, withNoCwd_some d b (by decide)]
      rfl
  | pattern p noCwd =>
    cases noCwd with
    | none => rfl
    | some b =>
      rw [toJson, withNoCwd_some p b (by decide)]
      rfl
  | mode mode => cases mode <;> rfl
  | unrecognized v => exact absurd rfl (recognized v)

theorem built_of_decodeObject {f : Fields α} {type : String} {v : Json} {a : α}
    (read : f.decodeObject type v = .ok a) : ∃ m, f.build m = .ok a := by
  cases v with
  | obj m =>
    rw [Fields.decodeObject] at read
    cases checked : Fields.checkMembers f.rules m with
    | error e =>
      rw [checked] at read
      cases read
    | ok =>
      rw [checked] at read
      exact ⟨m, read⟩
  | _ => cases read

theorem of_firstOf {type : String} {decoders : List (Decoder α)} {v : Json} {a : α}
    (read : Decoder.firstOf type decoders v = .ok a) : ∃ d ∈ decoders, d v = .ok a := by
  induction decoders with
  | nil => cases read
  | cons d rest ih =>
    rw [Decoder.firstOf] at read
    cases own : d v with
    | ok b =>
      rw [own] at read
      exact ⟨d, List.mem_cons_self, own.trans read⟩
    | error e =>
      rw [own] at read
      obtain ⟨d, among, later⟩ := ih read
      exact ⟨d, List.mem_cons_of_mem _ among, later⟩

theorem made_of_textAnd {β : Type} {mk : String → β → α} {x : Fields β} {type : String} {v : Json} {a : α}
    (read : Fields.decodeObject (mk <$> .required one .string <*> x) type v = .ok a) : ∃ s b, a = mk s b := by
  obtain ⟨m, built⟩ := built_of_decodeObject read
  obtain ⟨s, b, -, -, same⟩ := build_textAnd.mp built
  exact ⟨s, b, same⟩

theorem ValidateEntry.eq_of_unrecognized {v w : Json} (kept : ofJson v = .unrecognized w) : w = v := by
  unfold ofJson at kept
  split at kept
  · cases kept
  · split at kept
    · rename_i e read
      obtain ⟨name, autoFix, item⟩ := made_of_textAnd read
      cases item.symm.trans kept
    · exact (ValidateEntry.unrecognized.inj kept).symm

theorem WorkingDirectoryEntry.eq_of_unrecognized {v w : Json} (kept : ofJson v = .unrecognized w) : w = v := by
  unfold ofJson at kept
  split at kept
  · rename_i e read
    obtain ⟨d, among, read⟩ := of_firstOf read
    rw [kept] at read
    simp only [decoders, List.map_cons, List.map_nil, List.mem_cons, List.not_mem_nil, or_false] at among
    rcases among with rfl | rfl | rfl | rfl | rfl
    · cases v <;> cases read
    · obtain ⟨d, b, other⟩ := made_of_textAnd read
      cases other
    · obtain ⟨d, noCwd, other⟩ := made_of_textAnd read
      cases other
    · obtain ⟨p, noCwd, other⟩ := made_of_textAnd read
      cases other
    · obtain ⟨m, built⟩ := built_of_decodeObject read
      obtain ⟨mode, -, other⟩ := (Fields.build_map _ _).mp built
      cases other
  · exact (WorkingDirectoryEntry.unrecognized.inj kept).symm

theorem ValidateEntry.ofJson_written (v : Json) : ofJson (ofJson v).toJson = ofJson v := by
  cases read : ofJson v with
  | unrecognized w =>
    have same := eq_of_unrecognized read
    subst same
    exact read
  | language name => exact ofJson_toJson (by simp)
  | item name autoFix => exact ofJson_toJson (by simp)

theorem WorkingDirectoryEntry.ofJson_written (v : Json) : ofJson (ofJson v).toJson = ofJson v := by
  cases read : ofJson v with
  | unrecognized w =>
    have same := eq_of_unrecognized read
    subst same
    exact read
  | _ => exact ofJson_toJson (by simp)

/-- What is written of an entry is the value that it was read from just if the value is held: if it is no
record of a known shape, or has nothing but texts and booleans of the first shape that it fits. The entry
itself stays in any case. -/
theorem entries_written {v : Json} (sorted : v.sorted = v) :
    ((ValidateEntry.ofJson v).toJson = v ↔ Held validateShapes v) ∧
      ((WorkingDirectoryEntry.ofJson v).toJson = v ↔ Held directoryShapes v) ∧
      ValidateEntry.ofJson (ValidateEntry.ofJson v).toJson = ValidateEntry.ofJson v ∧
      WorkingDirectoryEntry.ofJson (WorkingDirectoryEntry.ofJson v).toJson = WorkingDirectoryEntry.ofJson v :=
  ⟨ValidateEntry.toJson_ofJson sorted, WorkingDirectoryEntry.toJson_ofJson sorted, ValidateEntry.ofJson_written v,
    WorkingDirectoryEntry.ofJson_written v⟩

/-- A record in the old and in the new way at once is no loss in the list of languages, where it is not known,
but is one in the list of working directories. -/
theorem entries_written_both_ways :
    (ValidateEntry.ofJson (.obj [("!cwd", .bool true), ("changeProcessCWD", .bool true),
        ("directory", .str "./a")])).toJson =
      .obj [("!cwd", .bool true), ("changeProcessCWD", .bool true), ("directory", .str "./a")] ∧
    (WorkingDirectoryEntry.ofJson (.obj [("!cwd", .bool true), ("changeProcessCWD", .bool true),
        ("directory", .str "./a")])).toJson ≠
      .obj [("!cwd", .bool true), ("changeProcessCWD", .bool true), ("directory", .str "./a")] := by
  have written := entries_written (v := .obj [("!cwd", .bool true), ("changeProcessCWD", .bool true),
    ("directory", .str "./a")]) rfl
  constructor
  · apply written.1.mpr
    rw [held_obj]
    intro shape found
    cases found
  · intro same
    have inside := held_obj.mp (written.2.1.mp same) _ rfl ("!cwd", .bool true) List.mem_cons_self
    exact absurd inside.1 (by decide)

end LinterClient.Settings
