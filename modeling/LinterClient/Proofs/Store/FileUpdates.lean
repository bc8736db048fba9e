import LinterClient.Proofs.FileSystem.Undisturbed
import LinterClient.Proofs.Store.Files
import LinterClient.Proofs.Toml.Editing
import LinterClient.Proofs.Toml.Encoding

/-!
Updates of settings files, beside writes to the settings in them.
-/

namespace LinterClient.FileStore

open AtomicWrite (backup recover)
open FileSystem.Script (Ends)
open Json (Members)

/-- A file with settings that can be read: it is missing, or its text is a document of settings. -/
def Loads (fs : FileSystem) (p : FilePath) (old : Members) : Prop :=
  fs.readText p = .error .notFound ∧ old = [] ∨
    ∃ text, fs.readText p = .ok text ∧ (Toml.Document.parse? text).bind Toml.Document.toJson? = some old

/-- The document in a file; an empty one if the file is missing. -/
def document? (fs : FileSystem) (p : FilePath) : Option Toml.Document :=
  Toml.Document.parse? ((fs.readText p).toOption.getD "")

/-- The document that an update makes of the one in a file. -/
def rewrittenDocument? (fs : FileSystem) (p : FilePath) (w : SettingWrite) : Option Toml.Document := do
  let item ← (itemOf w.key w.value).toOption
  let d ← document? fs p
  some (d.update item (KeyPath.segments w.key))

variable {s : FileStore} {w : SettingWrite} {p : FilePath} {fs : FileSystem} {old : Members}

theorem Loads.document (loads : Loads fs p old) :
    ∃ d, document? fs p = some d ∧ d.entries.Sound ∧ d.toJson? = some old := by
  rcases loads with ⟨missing, rfl⟩ | ⟨text, read, loaded⟩
  · exact ⟨.empty, by rw [document?, missing]; rfl, Toml.Entries.sound_nil, rfl⟩
  · obtain ⟨d, parsed, shown⟩ := Option.bind_eq_some_iff.mp loaded
    refine ⟨d, ?_, Toml.Document.parse?_sound parsed, shown⟩
    rw [document?, read]
    exact parsed

/-- The file system once an interrupted write to a file was undone. -/
def restored (fs : FileSystem) (p : FilePath) : FileSystem :=
  ((recover p).run fs).2

theorem restored_eq (settled : fs.exists? (backup p) = false) : restored fs p = fs := by
  rw [restored, AtomicWrite.recover_run, settled, Bool.and_false]
  rfl

theorem Loads.edited_eq (loads : Loads fs p old) {d : Toml.Document} (parsed : document? fs p = some d)
    (item : Option Toml.Item) (path : List String) :
    (item = none ∧ old = [] ∧ settings fs p = [] ∧ edited p item path (fs.readText p) = .ok none) ∨
      edited p item path (fs.readText p) = .ok (some (d.update item path).text) := by
  rw [document?] at parsed
  rcases loads with ⟨missing, rfl⟩ | ⟨text, read, -⟩
  · rw [missing] at parsed ⊢
    cases item with
    | none => exact .inl ⟨rfl, rfl, by rw [settings, missing], rfl⟩
    | some i =>
      refine .inr ?_
      change Toml.Document.parse? "" = some d at parsed
      simp [edited, parsed]
  · refine .inr ?_
    rw [read] at parsed ⊢
    change Toml.Document.parse? text = some d at parsed
    simp only [edited, parsed]

theorem isDirectory_of_edited {item : Option Toml.Item} {path : List String} {new : String}
    (change : edited p item path (fs.readText p) = .ok (some new)) : fs.isDirectory p = false := by
  cases seen : fs.stat p with
  | error e => simp only [FileSystem.isDirectory, seen]
  | ok entry =>
    cases entry with
    | file content mode => simp only [FileSystem.isDirectory, seen]
    | directory =>
      have read : fs.readText p = .error .isADirectory := by
        rw [FileSystem.readText, FileSystem.read, seen]
        rfl
      rw [read] at change
      cases change

/-- An edit that succeeds has nothing to do, or puts a new text in place of the old one. -/
def Edits (p : FilePath) (item : Option Toml.Item) (path : List String) (fs fs' : FileSystem) : Prop :=
  edited p item path (fs.readText p) = .ok none ∧ fs' = fs ∨
    ∃ new, edited p item path (fs.readText p) = .ok (some new) ∧
      AtomicWrite.Replaced p (Utf8.encode new) fs fs'

theorem editFile_edits (item : Option Toml.Item) (path : List String) (wf : (restored fs p).WellFormed) :
    (editFile p item path).Ends (fun r fs' => r = .ok () → Edits p item path (restored fs p) fs') fs := by
  refine .bind ?_
  rw [Ends]
  -- from here on only the restored files matter
  change Ends _ _ (restored fs p)
  generalize restored fs p = fs at wf ⊢
  refine .readText ?_
  cases change : edited p item path (fs.readText p) with
  | error e => exact fun done => by cases done
  | ok text =>
    cases text with
    | none => exact fun _ => .inl ⟨change, rfl⟩
    | some new =>
      refine Ends.bind ((AtomicWrite.write_ends wf (isDirectory_of_edited change)).weaken ?_)
      intro r fs' lands done
      cases r with
      | error e => cases done
      | ok value => exact .inr ⟨new, change, lands rfl⟩

/-- An edit that succeeds has nothing to remove, or puts the edited document in place of the old one. -/
theorem editFile_ends (item : Option Toml.Item) (path : List String)
    (wf : (restored fs p).WellFormed) (loads : Loads (restored fs p) p old) :
    (editFile p item path).Ends (fun r fs' => r = .ok () →
      (item = none ∧ old = [] ∧ settings fs' p = []) ∨
        ∃ d, document? (restored fs p) p = some d ∧
          settings fs' p = settingsIn (d.update item path).text) fs := by
  refine (editFile_edits item path wf).weaken fun r fs' edits done => ?_
  obtain ⟨d, parsed, -⟩ := loads.document
  rcases loads.edited_eq parsed item path with ⟨none_, empty, nothing, change⟩ | change <;>
    rcases edits done with ⟨same, rfl⟩ | ⟨new, same, replaced⟩ <;> rw [change] at same
  · exact .inl ⟨none_, empty, nothing⟩
  · cases same
  · cases same
  · cases same
    exact .inr ⟨d, parsed, settings_text replaced.holds⟩

theorem edited_representable (p : FilePath) (item : Option Toml.Item) (path : List String)
    (text : Except IoError String) (key reason : String) :
    edited p item path text ≠ .error (.unrepresentable key reason) := by
  intro refused
  simp only [edited] at refused
  split at refused
  · split at refused <;> cases refused
  · split at refused
    · cases refused
    · split at refused <;> cases refused
  · cases refused

theorem editFile_representable (item : Option Toml.Item) (path : List String) (fs : FileSystem) :
    (editFile p item path).Ends (fun r _ => ∀ key reason, r ≠ .error (.unrepresentable key reason)) fs := by
  refine .bind ?_
  rw [Ends]
  refine .readText ?_
  cases change : edited p item path (((recover p).run fs).2.readText p) with
  | error e =>
    rintro key reason ⟨⟩
    exact edited_representable _ _ _ _ _ _ change
  | ok result =>
    cases result with
    | none =>
      rintro key reason ⟨⟩
    | some text =>
      refine .bind ?_
      rw [Ends]
      rintro key reason refused
      cases written : ((AtomicWrite.write p (Utf8.encode text) .default).run ((recover p).run fs).2).1 <;>
        rw [written] at refused <;> cases refused

theorem restored_wellFormed (wf : fs.WellFormed) (aside : fs.isDirectory (backup p) = false) :
    (restored fs p).WellFormed := by
  obtain ⟨x, held⟩ := FileSystem.holds_of_isDirectory aside
  rw [restored, AtomicWrite.recover_run, held.exists?_eq]
  split
  · cases moved : fs.rename (backup p) p with
    | error e => exact wf
    | ok after =>
      cases x with
      | none => simp_all
      | some content => exact (FileSystem.rename_moved wf held moved).1.wf
  · exact wf

/-! ## Updates -/

theorem writeScript_eq (tier : s.path? w.resource w.tier = some p) {item : Option Toml.Item}
    (made : itemOf w.key w.value = .ok item) :
    s.writeScript w = editFile p item (KeyPath.segments w.key) := by
  simp only [writeScript, tier, made]

theorem itemOf_some (key : String) {v : Json} (present : v ≠ .null) :
    itemOf key (some v) = match Toml.Item.ofJson? v with
      | some i => .ok (some i)
      | none => .error (.unrepresentable key "TOML has no null") := by
  cases v with
  | null => exact absurd rfl present
  | _ => rfl

theorem write_refused (tier : s.path? w.resource w.tier = some p) {v : Json} (value : w.value = some v)
    (present : v ≠ .null) (refused : Toml.Item.ofJson? v = none) :
    s.write w = (.error (.unrepresentable w.key "TOML has no null"), s) := by
  simp only [write, writeScript, tier, value, itemOf_some w.key present, refused]
  rfl

section Updates

variable (tier : s.path? w.resource w.tier = some p) (filled : KeyPath.segments w.key ≠ [])
  (wf : (restored s.files p).WellFormed) (loads : Loads (restored s.files p) p old)
  (printed : ∀ d, rewrittenDocument? (restored s.files p) p w = some d → d.PrintsBack)
  (done : (s.write w).1 = .ok ())

include tier wf loads printed done

theorem settings_write {item : Option Toml.Item} (made : itemOf w.key w.value = .ok item) :
    (item = none ∧ old = [] ∧ settings (s.write w).2.files p = []) ∨
      ∃ d, document? (restored s.files p) p = some d ∧ d.entries.Sound ∧ d.entries.members? = some old ∧
        settings (s.write w).2.files p =
          (d.update item (KeyPath.segments w.key)).entries.members?.getD [] := by
  have ends := editFile_ends item (KeyPath.segments w.key) wf loads
  rw [Ends, ← writeScript_eq tier made] at ends
  obtain empty | ⟨d, parsed, written⟩ := ends done
  · exact .inl empty
  · obtain ⟨d', parsed', sound, shown⟩ := loads.document
    obtain rfl : d = d' := Option.some.inj (parsed.symm.trans parsed')
    have back : (d.update item (KeyPath.segments w.key)).PrintsBack := by
      refine printed _ ?_
      simp [rewrittenDocument?, made, parsed, Except.toOption]
    refine .inr ⟨d, parsed, sound, ?_, ?_⟩
    · rw [← sound.toJson?_eq, shown]
    · rw [← back]
      exact written

include filled

/-- A removal leaves what removing from the settings leaves, above the path apart. -/
theorem lookup_after_removal (none_ : w.value = none) {other : List String}
    (outside : KeyPath.segments w.key <+: other ∨ KeyPath.Apart (KeyPath.segments w.key) other) :
    KeyPath.lookup (settings (s.write w).2.files p) other =
      KeyPath.lookup (KeyPath.remove old (KeyPath.segments w.key)) other := by
  have made : itemOf w.key w.value = .ok none := by
    rw [none_]
    rfl
  obtain ⟨-, rfl, nothing⟩ | ⟨d, -, sound, shown, written⟩ := settings_write tier wf loads printed done made
  · rw [nothing, KeyPath.remove_nil]
  · obtain ⟨m, removed, kept, gone⟩ := Toml.Entries.members?_remove sound filled shown
    have now : settings (s.write w).2.files p = m := by
      rw [written, Toml.Document.update, removed]
      rfl
    rw [now]
    rcases outside with begins | apart
    · rw [gone other begins, KeyPath.lookup_remove_of_prefix old filled begins]
    · rw [kept other apart, KeyPath.lookup_remove_of_apart old apart]

/-- After an assignment the settings have at the path what the new item is read as, and are otherwise the
old ones. -/
theorem settings_after_assignment {v : Json} (value : w.value = some v) (present : v ≠ .null)
    {i : Toml.Item} (made : Toml.Item.ofJson? v = some i) :
    ∃ d, document? (restored s.files p) p = some d ∧ ∀ x,
      ((d.entries.leaf i false (KeyPath.segments w.key)).read? = some (some x) →
        settings (s.write w).2.files p = KeyPath.assign old x (KeyPath.segments w.key)) ∧
      (KeyPath.lookup (settings (s.write w).2.files p) (KeyPath.segments w.key) = some x →
        (d.entries.leaf i false (KeyPath.segments w.key)).read? = some (some x)) := by
  have item : itemOf w.key w.value = .ok (some i) := by
    rw [value, itemOf_some w.key present, made]
  obtain ⟨absent, -⟩ | ⟨d, parsed, sound, shown, written⟩ := settings_write tier wf loads printed done item
  · cases absent
  · refine ⟨d, parsed, fun x => ⟨fun leaf => ?_, fun found => ?_⟩⟩
    · rw [written, Toml.Document.update, Toml.Entries.members?_assign i false sound filled shown leaf]
      rfl
    · rw [written, Toml.Document.update] at found
      cases after : (d.entries.assign i false (KeyPath.segments w.key)).members? with
      | none => simp [after] at found
      | some m =>
        rw [Toml.Entries.read?_leaf i false sound filled after, ← found, after]
        rfl

end Updates

/-- An update of a file is an update of the settings in it: a value that every document keeps as it is, or
its removal. Only what lies above the key may look different, where an emptied table no longer shows. -/
theorem inspect_after_update (tier : s.path? w.resource w.tier = some p)
    (filled : KeyPath.segments w.key ≠ [])
    (storable : ∀ v, w.value = some v → v.sorted = v ∧ Toml.Storable v)
    (wf : s.files.WellFormed) (settled : s.files.exists? (backup p) = false)
    (loads : Loads s.files p old)
    (printed : ∀ d, rewrittenDocument? s.files p w = some d → d.PrintsBack)
    (done : (s.write w).1 = .ok ()) {key : String}
    (outside : ¬ (KeyPath.segments key <+: KeyPath.segments w.key ∧
      KeyPath.segments key ≠ KeyPath.segments w.key)) :
    ((s.write w).2.inspect key w.resource).get w.tier =
      KeyPath.lookup (KeyPath.update old w.value (KeyPath.segments w.key)) (KeyPath.segments key) := by
  rw [← restored_eq settled] at wf loads printed
  have shown : ((s.write w).2.inspect key w.resource).get w.tier =
      KeyPath.lookup (settings (s.write w).2.files p) (KeyPath.segments key) := inspect_tier tier key
  rw [shown]
  cases value : w.value with
  | none =>
    refine lookup_after_removal tier filled wf loads printed done value ?_
    by_cases begins : KeyPath.segments w.key <+: KeyPath.segments key
    · exact .inl begins
    · exact .inr ⟨begins, fun above => outside ⟨above, fun same => begins (same ▸ List.prefix_rfl)⟩⟩
  | some v =>
    obtain ⟨sorted, kept⟩ := storable v value
    obtain ⟨i, made⟩ := kept.exists_item
    obtain ⟨d, -, each⟩ :=
      settings_after_assignment tier filled wf loads printed done value (kept.filled v .self).1 made
    have leaf := (d.entries.read?_leaf_iff sorted made (KeyPath.segments w.key)).mpr
      ⟨kept.fits, .inl kept.shows⟩
    rw [kept.withoutNulls_eq] at leaf
    rw [(each v).1 leaf]
    rfl

/-- A member is added between braces. -/
theorem inspect_after_update_inline :
    let s : FileStore := ⟨⟨[], none⟩, AtomicWrite.asideFile,
      ⟨[([[97]], .file [97, 61, 123, 98, 61, 49, 125] 0o644)]⟩⟩
    let w : SettingWrite := ⟨"a.c", some (.bool true), .global, none⟩
    (s.write w).1 = .ok () ∧
      ((s.write w).2.inspect "a.b" none).global = some (.ofInt 1) ∧
      ((s.write w).2.inspect "a.c" none).global = some (.bool true) := by
  intro s w
  let old : Members := [("a", .obj [("b", .ofInt 1)])]
  have text : Utf8.encode "a={b=1}" = [97, 61, 123, 98, 61, 49, 125] :=
    Utf8.encode_ofList ['a', '=', '{', 'b', '=', '1', '}'] (by simp)
  have file : (s.files.read AtomicWrite.asideFile).toOption = some (Utf8.encode "a={b=1}") := by
    rw [text]
    decide
  have read : s.files.readText AtomicWrite.asideFile = .ok "a={b=1}" := by
    rw [(FileSystem.read_eq_some.mp file).readText_eq, Utf8.decode?_encode]
  have unkept : s.files.exists? (backup AtomicWrite.asideFile) = false := by
    rw [AtomicWrite.backup_asideFile]
    decide
  have loads : Loads s.files AtomicWrite.asideFile old := .inr ⟨_, read, by decide +kernel⟩
  have storable : Toml.Storable (.bool true) := by
    refine ⟨fun x inside => ?_, fun n inRange inside => by cases inside⟩
    cases inside
    simp
  have printed : ∀ d, rewrittenDocument? s.files AtomicWrite.asideFile w = some d → d.PrintsBack := by
    have all : (rewrittenDocument? s.files AtomicWrite.asideFile w).all fun d => decide d.PrintsBack := by
      rw [rewrittenDocument?, document?, read]
      decide +kernel
    exact fun d made => of_decide_eq_true (Option.all_eq_true .. |>.mp all d made)
  have done : (s.write w).1 = .ok () := by decide +kernel
  have now (key : String) (outside : ¬ (KeyPath.segments key <+: KeyPath.segments w.key ∧
      KeyPath.segments key ≠ KeyPath.segments w.key)) := inspect_after_update (s := s) (w := w)
    (p := AtomicWrite.asideFile) rfl (by decide +kernel)
    (fun v value => by cases value; exact ⟨rfl, storable⟩)
    (FileSystem.wellFormed_of_entries (by decide)) unkept loads printed done outside
  refine ⟨done, (now "a.b" (by decide +kernel)).trans ?_, (now "a.c" (by decide +kernel)).trans ?_⟩ <;>
    decide +kernel

/-- A value that was stored is read back without its members that are `null` if its whole numbers fit and
no object outside arrays is empty; objects in a table between braces may be empty. Other values are read
back changed or not at all. Only `null` in an array is refused as such, and then nothing changes. -/
theorem inspect_stored {v : Json} (tier : s.path? w.resource w.tier = some p)
    (filled : KeyPath.segments w.key ≠ []) (value : w.value = some v) (present : v ≠ .null)
    (sorted : v.sorted = v) (wf : s.files.WellFormed) (aside : s.files.isDirectory (backup p) = false)
    (loads : Loads (restored s.files p) p old)
    (printed : ∀ d, rewrittenDocument? (restored s.files p) p w = some d → d.PrintsBack) :
    ((s.write w).1 = .ok () →
      (((s.write w).2.inspect w.key w.resource).get w.tier = some v.withoutNulls ↔
        Toml.Fits v ∧ (Toml.Shows v ∨ ∃ d, document? (restored s.files p) p = some d ∧
          d.entries.throughBraces (KeyPath.segments w.key)))) ∧
    (Toml.ListsNull v → s.write w = (.error (.unrepresentable w.key "TOML has no null"), s)) ∧
    ∀ key reason, (s.write w).1 = .error (.unrepresentable key reason) → Toml.ListsNull v := by
  refine ⟨?_, ?_, ?_⟩
  · intro done
    have shown : ((s.write w).2.inspect w.key w.resource).get w.tier =
        KeyPath.lookup (settings (s.write w).2.files p) (KeyPath.segments w.key) := inspect_tier tier w.key
    obtain ⟨i, made⟩ : ∃ i, Toml.Item.ofJson? v = some i := by
      refine Option.ne_none_iff_exists'.mp fun refused => ?_
      rw [write_refused tier value present refused] at done
      cases done
    obtain ⟨d, parsed, each⟩ := settings_after_assignment tier filled
      (restored_wellFormed wf aside) loads printed done value present made
    have leaf := d.entries.read?_leaf_iff sorted made (KeyPath.segments w.key)
    have through : (∃ d, document? (restored s.files p) p = some d ∧
        d.entries.throughBraces (KeyPath.segments w.key)) ↔
          d.entries.throughBraces (KeyPath.segments w.key) := by
      simp [parsed]
    rw [shown, through, ← leaf]
    refine ⟨(each _).2, fun last => ?_⟩
    rw [(each _).1 last]
    exact KeyPath.lookup_assign_self old _ filled
  · intro listed
    exact write_refused tier value present ((Toml.Item.ofJson?_eq_none_iff v).mpr (.inr listed))
  · intro key reason refused
    cases made : Toml.Item.ofJson? v with
    | none => exact ((Toml.Item.ofJson?_eq_none_iff v).mp made).resolve_left present
    | some i =>
      have item : itemOf w.key w.value = .ok (some i) := by
        rw [value, itemOf_some w.key present, made]
      rw [write, writeScript_eq tier item] at refused
      exact absurd refused (editFile_representable (some i) _ s.files key reason)

/-- An empty object is stored with success, and then is not there. -/
theorem inspect_stored_empty :
    let s : FileStore := ⟨⟨[], none⟩, AtomicWrite.asideFile, ⟨[]⟩⟩
    let w : SettingWrite := ⟨"b", some (.obj []), .global, none⟩
    (s.write w).1 = .ok () ∧ ((s.write w).2.inspect "b" none).global ≠ some (.obj []) := by
  intro s w
  have path : KeyPath.segments "b" = ["b"] := KeyPath.segments_of_no_dot (by decide) (by decide)
  have done : (s.write w).1 = .ok () := by decide +kernel
  have wf : s.files.WellFormed := FileSystem.wellFormed_of_entries (by decide)
  have unkept : s.files.exists? (backup AtomicWrite.asideFile) = false := by
    rw [AtomicWrite.backup_asideFile]
    decide
  have aside : s.files.isDirectory (backup AtomicWrite.asideFile) = false := by
    rw [AtomicWrite.backup_asideFile]
    decide
  have same : restored s.files AtomicWrite.asideFile = s.files := restored_eq unkept
  have missing : s.files.readText AtomicWrite.asideFile = .error .notFound := by decide +kernel
  have old : document? s.files AtomicWrite.asideFile = some .empty := by
    rw [document?, missing]
    rfl
  have printed : ∀ d, rewrittenDocument? s.files AtomicWrite.asideFile w = some d → d.PrintsBack := by
    intro d made
    have table : d = ⟨[(.new "b", .table [] .new)], ""⟩ := by
      rw [rewrittenDocument?, old] at made
      cases made
      change Toml.Document.update _ _ (KeyPath.segments "b") = _
      rw [path]
      rfl
    have text : d.text = "" := by
      rw [table, Toml.Document.text, Toml.Block.inOrder, List.mergeSort_of_pairwise (by decide +kernel)]
      decide +kernel
    rw [Toml.Document.PrintsBack, text, table]
    decide +kernel
  have stored := inspect_stored (s := s) (w := w) (p := AtomicWrite.asideFile) (v := .obj [])
    rfl (by decide +kernel) rfl (by simp) rfl wf aside (.inl ⟨by rw [same, missing], rfl⟩)
    (by rw [same]; exact printed)
  refine ⟨done, fun found => ?_⟩
  obtain ⟨-, shows | ⟨d, parsed, braces⟩⟩ := (stored.1 done).mp found
  · exact shows .self
  · rw [same, old] at parsed
    cases parsed
    simp [Toml.Document.empty, Toml.Entries.throughBraces_nil] at braces

end LinterClient.FileStore
