import LinterClient.Proofs.FileSystem.Renaming
import LinterClient.Proofs.Store.FileUpdates
import LinterClient.Proofs.Toml.Comments.Printing

/-!
The comments of settings files, while settings are written to a store.

A write puts its value in the place of what stands at its key, together with the comments of that. All
other comments of the file stay, and so do the texts of all other files.
-/

namespace LinterClient.FileStore

open AtomicWrite (backup recover)
open Toml (comments)

variable {s : FileStore} {w : SettingWrite} {p q : FilePath} {fs : FileSystem} {text : String}

/-! ## Other files -/

theorem holds_of_readText (read : fs.readText p = .ok text) :
    ∃ content, fs.Holds p (some content) ∧ Utf8.decode? content = some text := by
  rw [FileSystem.readText] at read
  cases found : fs.read p with
  | error e => simp [found, bind, Except.bind] at read
  | ok content =>
    refine ⟨content, FileSystem.read_eq_some.mp (by rw [found]; rfl), ?_⟩
    simp only [found, bind, Except.bind] at read
    split at read
    · cases read
      assumption
    · cases read

/-- Undoing an interrupted write moves no other file than the backup, and nothing onto a file. -/
theorem restored_leaves {content : List UInt8} (wf : fs.WellFormed) (held : fs.Holds p (some content))
    (spared : ¬ (backup q).location <+: p.location) :
    (restored fs q).WellFormed ∧ (restored fs q).Holds p (some content) := by
  rw [restored, AtomicWrite.recover_run]
  split
  · rename_i interrupted
    cases done : fs.rename (backup q) q with
    | error e => exact ⟨wf, held⟩
    | ok after =>
      obtain ⟨wf', same⟩ := FileSystem.rename_leaves wf done
      refine ⟨wf', held.frame wf wf' (same _ spared fun above => ?_)⟩
      -- what leads to the file exists, and is not restored then
      obtain ⟨-, -, mode, stands⟩ := held.file wf
      simp [FileSystem.exists?_above wf (FileSystem.rename_reached wf done) stands above] at interrupted
  · exact ⟨wf, held⟩

/-- Two paths to one place that can both be read hold the same. -/
theorem holds_shared {content new : List UInt8} {fs' : FileSystem} (wf : fs.WellFormed) (wf' : fs'.WellFormed)
    (held : fs.Holds p (some content)) (same : q.location = p.location) (held' : fs'.Holds q (some new)) :
    fs.Holds q (some content) ∧ fs'.Holds p (some new) := by
  obtain ⟨valid, plain, mode, stands⟩ := held.file wf
  obtain ⟨valid', plain', mode', stands'⟩ := held'.file wf'
  exact ⟨FileSystem.holds_file wf valid' plain' (same ▸ stands),
    FileSystem.holds_file wf' valid plain (same ▸ stands')⟩

/-! ## One write -/

/-- The comments that a write to a file replaces, if it is the file of the write. -/
def replacedComments (s : FileStore) (p : FilePath) (w : SettingWrite) : Multiset String :=
  if (s.path? w.resource w.tier).map FilePath.location = some p.location then
    ((document? s.files p).map fun d => d.entries.replaced false (KeyPath.segments w.key)).getD 0
  else 0

/-- Storing an object makes a new text, which has the comments of the old one that were not replaced. -/
theorem comments_edited {m : Json.Members} {i : Toml.Item} (made : Toml.Item.ofJson? (.obj m) = some i)
    {path : List String} {new : String} (done : edited p (some i) path (.ok text) = .ok (some new)) :
    ∃ d, Toml.Document.parse? text = some d ∧ comments text = comments new + d.entries.replaced false path := by
  simp only [edited] at done
  cases parsed : Toml.Document.parse? text with
  | none => simp [parsed] at done
  | some d =>
    simp only [parsed, Except.ok.injEq, Option.some.injEq] at done
    exact ⟨d, rfl, done ▸ Toml.Document.comments_update parsed made path⟩

/-- What is stored is never left out. -/
theorem edited_ne_none (i : Toml.Item) (path : List String) (old : Except IoError String) :
    edited p (some i) path old ≠ .ok none := by
  intro done
  simp only [edited, Option.isNone_some, Bool.false_eq_true, if_false] at done
  repeat' split at done
  all_goals cases done

/-- A write that succeeds has put a new text into its file. -/
theorem write_replaced (tier : s.path? w.resource w.tier = some q) {m : Json.Members}
    (value : w.value = some (.obj m)) (wf : (restored s.files q).WellFormed) (done : (s.write w).1 = .ok ()) :
    ∃ i new, Toml.Item.ofJson? (.obj m) = some i ∧
      edited q (some i) (KeyPath.segments w.key) ((restored s.files q).readText q) = .ok (some new) ∧
      AtomicWrite.Replaced q (Utf8.encode new) (restored s.files q) (s.write w).2.files := by
  cases made : Toml.Item.ofJson? (.obj m) with
  | none =>
    rw [write_refused tier value (by simp) made] at done
    cases done
  | some i =>
    have item : itemOf w.key w.value = .ok (some i) := by
      rw [value, itemOf_some w.key (by simp), made]
    have edits := editFile_edits (some i) (KeyPath.segments w.key) wf
    rw [FileSystem.Script.Ends, ← writeScript_eq tier item] at edits
    obtain ⟨change, -⟩ | ⟨new, change, replaced⟩ := edits done
    · exact absurd change (edited_ne_none i _ _)
    · exact ⟨i, new, rfl, change, replaced⟩

theorem write_comments (wf : s.files.WellFormed) (read : s.files.readText p = .ok text)
    (spared : ∀ q, s.path? w.resource w.tier = some q → ¬ (backup q).location <+: p.location)
    {m : Json.Members} (value : w.value = some (.obj m)) (done : (s.write w).1 = .ok ()) :
    (s.write w).2.files.WellFormed ∧ ∃ after, (s.write w).2.files.readText p = .ok after ∧
      comments text = comments after + s.replacedComments p w := by
  cases tier : s.path? w.resource w.tier with
  | none =>
    simp only [write, writeScript, tier] at done
    cases done
  | some q =>
    obtain ⟨content, held, decoded⟩ := holds_of_readText read
    obtain ⟨wf', held'⟩ := restored_leaves wf held (spared q tier)
    obtain ⟨i, new, made, change, replaced⟩ := write_replaced tier value wf' done
    refine ⟨replaced.wf, ?_⟩
    by_cases same : q.location = p.location
    · obtain ⟨here, there⟩ := holds_shared wf' replaced.wf held' same replaced.holds
      rw [here.readText_eq, decoded] at change
      obtain ⟨d, parsed, sum⟩ := comments_edited made change
      refine ⟨new, by rw [there.readText_eq, Utf8.decode?_encode], ?_⟩
      have found : document? s.files p = some d := by rw [document?, read]; exact parsed
      rw [replacedComments, tier, Option.map_some, if_pos (congrArg some same), found]
      exact sum
    · refine ⟨text, by rw [(replaced.others (Ne.symm same) held').readText_eq, decoded], ?_⟩
      have elsewhere : some q.location ≠ some p.location := fun equal => same (Option.some.inj equal)
      rw [replacedComments, tier, Option.map_some, if_neg elsewhere, add_zero]

end LinterClient.FileStore
