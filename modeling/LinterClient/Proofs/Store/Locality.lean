import LinterClient.Proofs.Store.Files
import LinterClient.Proofs.Toml.Editing
import LinterClient.Proofs.Toml.Representable

/-!
How much of a settings file one setting depends on.

A file is read as a whole, and a single number in it that JSON does not have makes all of it unreadable.
Apart from that a setting is what the document holds at the path of its key.
-/

namespace LinterClient

open Json (Members)

namespace Toml.Entries

/-- The item at a path, through tables of either kind. -/
def at? (entries : Entries) : List String → Option Item
  | [] => none
  | [last] => entries.get? last
  | name :: path => ((entries.get? name).bind Item.entries?).bind fun below => at? below path

variable {entries : Entries} {m : Members}

theorem at?_cons (name : String) {path : List String} (more : path ≠ []) :
    entries.at? (name :: path) = ((entries.get? name).bind Item.entries?).bind fun below => at? below path := by
  cases path with
  | nil => exact absurd rfl more
  | cons next rest => rfl

theorem Sound.of_entries? {i : Item} (sound : i.Sound) {below : Entries} (inside : i.entries? = some below) :
    below.Sound := by
  cases i with
  | value => cases inside
  | inline entries braces around =>
    cases inside
    exact .of_inline sound
  | table entries heading =>
    cases inside
    exact .of_table sound
  | tables => cases inside

/-- What settings hold at a path is what the item there stands for. -/
theorem at?_toJson? (sound : entries.Sound) (read : entries.members? = some m) (path : List String) :
    (entries.at? path).map (·.data.toJson?) = (KeyPath.lookup m path).map some := by
  induction path generalizing entries m with
  | nil => rfl
  | cons name path ih =>
    have own := ((members?_eq_some_iff sound.distinct m).mp read).2 name
    by_cases more : path = []
    · subst more
      change (entries.get? name).map (·.data.toJson?) = (Members.get? m name).map some
      cases found : entries.get? name with
      | none =>
        rw [read?_of_get?_none found] at own
        rw [← Option.some.inj own]
        rfl
      | some i =>
        rw [read?_of_get? found, Item.read?, (sound.get? found).shown?_eq, Option.map_eq_some_iff] at own
        obtain ⟨j, value, held⟩ := own
        rw [← held, Option.map_some, Option.map_some, value]
    · rw [at?_cons name more, KeyPath.lookup_cons m name more]
      cases found : entries.get? name with
      | none =>
        rw [read?_of_get?_none found, Option.some.injEq] at own
        simp [KeyPath.child, ← own]
      | some i =>
        rw [read?_of_get? found] at own
        cases inside : i.entries? with
        | none => simp [inside, (sound.get? found).child_of_plain inside own]
        | some below =>
          rw [Option.bind_some, inside, Option.bind_some]
          exact ih (.of_entries? (sound.get? found) inside) (Item.child_of_entries inside own)

end Toml.Entries

namespace FileStore

variable {s : FileStore} {files files' : FileSystem} {p : FilePath} {resource : Option Url} {t : Tier}
variable {text text' : String} {d d' : Toml.Document}

/-- All of a document has a JSON form. -/
def Whole (d : Toml.Document) : Prop :=
  (Toml.Value.table d.data).Representable

theorem settings_document (read : files.readText p = .ok text) (parsed : Toml.Document.parse? text = some d) :
    settings files p = d.toJson?.getD [] := by
  simp only [settings, read, parsed, Option.bind_some]

theorem inspect_whole (tier : s.path? resource t = some p) (read : files.readText p = .ok text)
    (parsed : Toml.Document.parse? text = some d) (whole : Whole d) (key : String) :
    (d.entries.at? (KeyPath.segments key)).map (·.data.toJson?) =
      ((inspect { s with files } key resource).get t).map some := by
  obtain ⟨m, shown⟩ := Option.isSome_iff_exists.mp (d.toJson?_isSome_iff.mpr whole)
  have sound := Toml.Document.parse?_sound parsed
  rw [inspect_tier tier key, settings_document read parsed, shown]
  exact Toml.Entries.at?_toJson? sound (sound.toJson?_eq ▸ shown) _

theorem inspect_unfit (tier : s.path? resource t = some p) (read : files.readText p = .ok text)
    (parsed : Toml.Document.parse? text = some d) (unfit : ¬ Whole d) (key : String) :
    (inspect { s with files } key resource).get t = none := by
  have none : d.toJson? = none := by
    rw [← Option.not_isSome_iff_eq_none, d.toJson?_isSome_iff]
    exact unfit
  rw [inspect_tier tier key, settings_document read parsed, none]
  exact KeyPath.lookup_nil _

/-- Two documents that agree on the item of a setting give it the same value, except if just one of them
has a JSON form: the other reads as empty, so that they differ unless both hold nothing. -/
theorem inspect_local (tier : s.path? resource t = some p)
    (read : files.readText p = .ok text) (parsed : Toml.Document.parse? text = some d)
    (read' : files'.readText p = .ok text') (parsed' : Toml.Document.parse? text' = some d') {key : String}
    (agree : (d.entries.at? (KeyPath.segments key)).map Toml.Item.data =
      (d'.entries.at? (KeyPath.segments key)).map Toml.Item.data) :
    let item := d.entries.at? (KeyPath.segments key)
    let value := (inspect { s with files } key resource).get t
    let value' := (inspect { s with files := files' } key resource).get t
    (Whole d → item.map (·.data.toJson?) = value.map some) ∧ (¬ Whole d → value = none) ∧
      (value = value' ↔ ((Whole d ↔ Whole d') ∨ item = none)) := by
  intro item value value'
  have first : Whole d → item.map (·.data.toJson?) = value.map some :=
    fun whole => inspect_whole tier read parsed whole key
  have second (whole : Whole d') : item.map (·.data.toJson?) = value'.map some := by
    have same := congrArg (Option.map Toml.Value.toJson?) agree
    rw [Option.map_map, Option.map_map] at same
    exact same.trans (inspect_whole tier read' parsed' whole key)
  have unfit : ¬ Whole d → value = none := fun unfit => inspect_unfit tier read parsed unfit key
  have unfit' : ¬ Whole d' → value' = none := fun unfit => inspect_unfit tier read' parsed' unfit key
  refine ⟨first, unfit, ?_⟩
  by_cases whole : Whole d <;> by_cases whole' : Whole d'
  · have same := (first whole).symm.trans (second whole')
    simp [whole, whole', Option.map_injective (fun _ _ => Option.some.inj) same]
  · have found := first whole
    rw [unfit' whole']
    cases held : item <;> cases read : value <;> simp_all
  · have found := second whole'
    rw [unfit whole]
    cases held : item <;> cases read : value' <;> simp_all
  · simp [whole, whole', unfit whole, unfit' whole']

/-- The settings file of the user alone. -/
def single (text : String) : FileSystem :=
  ⟨[([[97]], .file (Utf8.encode text) 0o644)]⟩

/-- A store in which only the user has settings. -/
def ofUser (files : FileSystem) : FileStore :=
  ⟨⟨[], none⟩, AtomicWrite.asideFile, files⟩

theorem readText_single (text : String) : (single text).readText AtomicWrite.asideFile = .ok text := by
  have file : ((single text).read AtomicWrite.asideFile).toOption = some (Utf8.encode text) := rfl
  rw [(FileSystem.read_eq_some.mp file).readText_eq, Utf8.decode?_encode]

theorem inspect_single (text key : String) : ((ofUser (single text)).inspect key none).get .global =
    KeyPath.lookup (settingsIn text) (KeyPath.segments key) := by
  have settled : settings (single text) AtomicWrite.asideFile = settingsIn text := by
    rw [settings, readText_single, settingsIn]
  rw [← settled]
  exact inspect_tier (s := ofUser (single "")) rfl key

/-- The value of a setting in a text. -/
def valueIn? (text key : String) : Option Toml.Value :=
  (Toml.Document.parse? text).bind fun d => (d.entries.at? (KeyPath.segments key)).map Toml.Item.data

theorem valueIn?_one {text key : String}
    (one : (valueIn? text key).any (fun | .int n => n = 1 | _ => false) = true) :
    valueIn? text key = some (.int 1) := by
  cases found : valueIn? text key with
  | none => simp [found] at one
  | some v =>
    rw [found, Option.any_some] at one
    cases v with
    | int n => rw [of_decide_eq_true one]
    | _ => cases one

/-- The same setting below a header and between braces, beside other ones. -/
theorem inspect_local_braces :
    valueIn? "[a]\nb=1\nc=[]" "a.b" = valueIn? "d=[]\na={b=1}" "a.b" ∧
      ((ofUser (single "[a]\nb=1\nc=[]")).inspect "a.b" none).get .global =
        ((ofUser (single "d=[]\na={b=1}")).inspect "a.b" none).get .global := by
  have one : valueIn? "[a]\nb=1\nc=[]" "a.b" = some (.int 1) := valueIn?_one (by decide +kernel)
  have one' : valueIn? "d=[]\na={b=1}" "a.b" = some (.int 1) := valueIn?_one (by decide +kernel)
  obtain ⟨d, parsed, held⟩ := Option.bind_eq_some_iff.mp one
  obtain ⟨d', parsed', held'⟩ := Option.bind_eq_some_iff.mp one'
  have whole {text : String} {d : Toml.Document} (parsed : Toml.Document.parse? text = some d)
      (loads : ((Toml.Document.parse? text).bind Toml.Document.toJson?).isSome) : Whole d := by
    rw [parsed] at loads
    exact d.toJson?_isSome_iff.mp loads
  have tier : (ofUser (single "")).path? none .global = some AtomicWrite.asideFile := rfl
  have both := inspect_local tier (readText_single _) parsed (readText_single _) parsed'
    (held.trans held'.symm)
  refine ⟨one.trans one'.symm, both.2.2.mpr (.inl (iff_of_true ?_ ?_))⟩
  · exact whole parsed (by decide +kernel)
  · exact whole parsed' (by decide +kernel)

/-- A number that JSON does not have makes another setting unreadable, though the item of that is the
same. -/
theorem inspect_local_nan :
    valueIn? "a=nan\nb=1" "b" = some (.int 1) ∧ valueIn? "b=1" "b" = some (.int 1) ∧
      ((ofUser (single "a=nan\nb=1")).inspect "b" none).get .global = none ∧
      ((ofUser (single "b=1")).inspect "b" none).get .global = some (.ofInt 1) := by
  refine ⟨valueIn?_one ?_, valueIn?_one ?_, (inspect_single _ _).trans ?_, (inspect_single _ _).trans ?_⟩ <;>
    decide +kernel

end FileStore

end LinterClient
