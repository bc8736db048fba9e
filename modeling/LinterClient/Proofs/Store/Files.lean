import LinterClient.Proofs.AtomicWrite
import LinterClient.Proofs.KeyPath
import LinterClient.Store.Files

/-!
Settings files whose writes are interrupted.

A reader opens the file only, and does not undo an interrupted write first. So it sees the old settings
or the new ones, except while the old file is aside.
-/

namespace LinterClient.FileStore

open AtomicWrite (backup recovered Whole)
open FileSystem (Script)
open FileSystem.Script (Keeps Reaches)

/-- The text that a write puts in place of a text. -/
def rewritten? (p : FilePath) (w : SettingWrite) (text : Except IoError String) : Option String := do
  let item ← (itemOf w.key w.value).toOption
  (edited p item (KeyPath.segments w.key) text).toOption.join

/-- The settings in a text. -/
def settingsIn (text : String) : Json.Members :=
  ((Toml.Document.parse? text).bind Toml.Document.toJson?).getD []

variable {s : FileStore} {w : SettingWrite} {p : FilePath} {fs fs' : FileSystem} {blind : Prop}
  {old : List UInt8}

theorem settings_same {content : List UInt8} (before : fs.Holds p (some content))
    (after : fs'.Holds p (some content)) : settings fs' p = settings fs p := by
  simp only [settings, before.readText_eq, after.readText_eq]

theorem settings_text {text : String} (holds : fs.Holds p (some (Utf8.encode text))) :
    settings fs p = settingsIn text := by
  simp only [settings, holds.readText_eq, Utf8.decode?_encode, settingsIn]

theorem settings_missing (missing : fs.Holds p none) : settings fs p = [] := by
  obtain ⟨e, failed⟩ := missing.readText_missing
  simp only [settings, failed]

theorem inspect_tier {files : FileSystem} {resource : Option Url} {t : Tier}
    (here : s.path? resource t = some p) (key : String) :
    (inspect { s with files } key resource).get t =
      KeyPath.lookup (settings files p) (KeyPath.segments key) := by
  have same : path? { s with files } resource t = some p := by
    rw [← here]
    cases t <;> rfl
  simp [inspect, same]

/-- At every point of an update the file has its old text, or the new one is being written. -/
theorem writeScript_keeps (tier : s.path? w.resource w.tier = some p)
    (other : p.extension? ≠ some (Utf8.encode "bak")) (wf : fs.WellFormed)
    (file : fs.Holds p (some old)) (aside : fs.isDirectory (backup p) = false)
    (seen : blind → fs.exists? (backup p) = false) :
    (s.writeScript w).Keeps blind
      (fun fs' => fs'.Holds p (some old) ∨ ∃ text, rewritten? p w (fs.readText p) = some text ∧
        Whole p old (Utf8.encode text) fs') (fun _ _ => True) fs := by
  have refused : ∀ r : Except StoreError Unit, Keeps blind
      (fun fs' => fs'.Holds p (some old) ∨ ∃ text, rewritten? p w (fs.readText p) = some text ∧
        Whole p old (Utf8.encode text) fs') (fun _ _ => True) (pure r) fs :=
    fun r => .pure (.inl file) trivial
  simp only [writeScript, tier]
  cases made : itemOf w.key w.value with
  | error e => exact refused _
  | ok item =>
    refine Keeps.bind ?_
    refine AtomicWrite.recover_keeps (.inl file) ?_ (by simp [file.exists?_eq]) seen
    refine Keeps.readText (.inl file) ?_ ?_
    · cases change : edited p item (KeyPath.segments w.key) (fs.readText p) with
      | error e => exact refused _
      | ok result =>
        cases result with
        | none => exact refused _
        | some text =>
          have wanted : rewritten? p w (fs.readText p) = some text := by
            simp [rewritten?, made, change, Except.toOption]
          refine Keeps.bind ?_
          refine (AtomicWrite.write_whole other wf file aside).mono ?_ ?_
          · exact fun fs' whole => .inr ⟨text, wanted, whole⟩
          · exact fun r fs' whole _ => .pure (.inr ⟨text, wanted, whole⟩) trivial
    · intro e present
      have failed : edited p item (KeyPath.segments w.key) (.error e) = .error (.read p.text e) := by
        cases e <;> first | rfl | exact absurd rfl present
      rw [failed]
      exact refused _

/-- Once an update was interrupted, each tier that has the file reads as before, or with the new
settings as a whole, as long as the file is there. While it is not, such a tier reads as empty, though
recovery would bring the old settings back: readers do not recover. -/
theorem inspect_after_interruption {files : FileSystem} {r : Option (Except StoreError Unit)}
    (tier : s.path? w.resource w.tier = some p)
    (other : p.extension? ≠ some (Utf8.encode "bak")) (wf : s.files.WellFormed)
    (file : (s.files.read p).toOption = some old) (aside : s.files.isDirectory (backup p) = false)
    (seen : blind → s.files.exists? (backup p) = false)
    (run : (s.writeScript w).Reaches blind s.files r files) :
    (files.exists? p = true ∧
      ((∀ key resource t, s.path? resource t = some p →
        (inspect { s with files } key resource).get t = (s.inspect key resource).get t) ∨
      ∃ text, rewritten? p w (s.files.readText p) = some text ∧
        ∀ key resource t, s.path? resource t = some p →
          (inspect { s with files } key resource).get t =
            KeyPath.lookup (settingsIn text) (KeyPath.segments key))) ∨
    (files.exists? p = false ∧ recovered p files = some old ∧
      ∀ key resource t, s.path? resource t = some p →
        (inspect { s with files } key resource).get t = none) := by
  have held := FileSystem.read_eq_some.mp file
  obtain ⟨now, -⟩ := (writeScript_keeps tier other wf held aside seen).reaches run
  have unchanged : files.Holds p (some old) → ∀ key resource t, s.path? resource t = some p →
      (inspect { s with files } key resource).get t = (s.inspect key resource).get t := by
    intro after key resource t here
    rw [inspect_tier here, settings_same held after]
    exact (inspect_tier here key).symm
  rcases now with same | ⟨text, wanted, same | new | ⟨missing, back⟩⟩
  · exact .inl ⟨by simp [same.exists?_eq], .inl (unchanged same)⟩
  · exact .inl ⟨by simp [same.exists?_eq], .inl (unchanged same)⟩
  · refine .inl ⟨by simp [new.exists?_eq], .inr ⟨text, wanted, ?_⟩⟩
    intro key resource t here
    rw [inspect_tier here, settings_text new]
  · refine .inr ⟨by simp [missing.exists?_eq], back, ?_⟩
    intro key resource t here
    rw [inspect_tier here, settings_missing missing, KeyPath.lookup_nil]

/-- The only setting of a file is removed. The process stops once the file is aside. -/
theorem inspect_after_interruption_aside :
    let fs : FileSystem := ⟨[([[97]], .file [97, 61, 49] 0o644)]⟩
    let s : FileStore := ⟨⟨[], none⟩, AtomicWrite.asideFile, fs⟩
    let w : SettingWrite := ⟨"a", none, .global, none⟩
    let files : FileSystem :=
      ⟨[([[97, 46, 98, 97, 107]], .file [97, 61, 49] 0o644), ([[116]], .file [] 0o600)]⟩
    (s.writeScript w).Reaches False fs none files ∧
      (s.inspect "a" none).global = some (.ofInt 1) ∧
      (inspect { s with files } "a" none).global = none ∧
      recovered AtomicWrite.asideFile files = some [97, 61, 49] := by
  intro fs s w files
  have text : Utf8.encode "a=1" = [97, 61, 49] :=
    Utf8.encode_ofList ['a', '=', '1'] (by simp)
  have empty : Utf8.encode "" = [] := Utf8.encode_ofList [] (by simp)
  have file : (fs.read AtomicWrite.asideFile).toOption = some [97, 61, 49] := by decide
  have holds := FileSystem.read_eq_some.mp file
  have read : fs.readText AtomicWrite.asideFile = .ok "a=1" := by
    rw [holds.readText_eq, ← text, Utf8.decode?_encode]
  have unkept : fs.exists? (backup AtomicWrite.asideFile) = false := by
    rw [AtomicWrite.backup_asideFile]
    decide
  have run : (s.writeScript w).Reaches False fs none files := by
    have change : edited s.globalPath none (KeyPath.segments w.key) (.ok "a=1") = .ok (some "") := by
      decide +kernel
    refine .sees (.sees ?_)
    rw [unkept]
    refine .reads ?_
    rw [read, Script.bind, change]
    refine Reaches.bind_stops _ ?_
    rw [empty]
    exact AtomicWrite.stops_aside [97, 61, 49] []
  have shown : (s.inspect "a" none).global = some (.ofInt 1) := by
    have one : settingsIn "a=1" = [("a", .ofInt 1)] := by decide +kernel
    have members : settings fs AtomicWrite.asideFile = [("a", .ofInt 1)] := by
      rw [← one]
      exact settings_text (by rw [text]; exact holds)
    have tier : s.path? none .global = some AtomicWrite.asideFile := rfl
    simp only [inspect, Scoped.ofFn, tier, Option.bind_some]
    rw [members]
    decide +kernel
  have other : AtomicWrite.asideFile.extension? ≠ some (Utf8.encode "bak") := by
    rw [FilePath.encode_bak]
    decide
  have wf : fs.WellFormed := FileSystem.wellFormed_of_entries (by decide)
  have missing : files.exists? AtomicWrite.asideFile = false := by decide
  have cases := inspect_after_interruption (s := s) (w := w) (p := AtomicWrite.asideFile) rfl other
    wf file (by rw [AtomicWrite.backup_asideFile]; decide) (fun _ => unkept) run
  rcases cases with ⟨present, -⟩ | ⟨-, back, nothing⟩
  · simp [missing] at present
  · exact ⟨run, shown, nothing "a" none .global rfl, back⟩

end LinterClient.FileStore
