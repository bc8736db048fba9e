import LinterClient.CommandLine.Files
import LinterClient.Proofs.AtomicWrite

/-!
A memento and its file.

A failed save may leave the file as it was, or with the new values. Either way the next client finds one of
the two, as it undoes an interrupted write before it reads the file.
-/

namespace LinterClient

namespace AtomicWrite

open FileSystem FileSystem.Script

variable {p : FilePath} {fs fs' : FileSystem} {name bytes : List UInt8} {blind : Prop} {o : Options}

/-- A well-formed tree in which neither a file nor its backup is a directory. -/
structure Tended (p : FilePath) (fs : FileSystem) : Prop where
  wf : fs.WellFormed
  file : ∃ x, fs.Holds p x
  aside : ∃ x, fs.Holds (backup p) x

/-- A write that comes to an end, however it does, leaves the old content or the new one. -/
theorem Tended.write (tended : Tended p fs) (named : p.fileName? = some name)
    (other : p.extension? ≠ some (Utf8.encode "bak")) {r : Option (Except IoError Unit)}
    (run : (write p bytes o).Reaches blind fs r fs') :
    Tended p fs' ∧ (recovered p fs' = recovered p fs ∨ recovered p fs' = some bytes) ∧
      (r = some (.ok ()) → recovered p fs' = some bytes) := by
  have apart := location_apart named other
  obtain ⟨old, hp⟩ := tended.file
  obtain ⟨kept, hb⟩ := tended.aside
  have keeps : (AtomicWrite.write p bytes o).Keeps blind (Between p old kept bytes) (Written p bytes) fs :=
    write_keeps (guards_named named apart) ⟨tended.wf, hp, hb⟩
  obtain ⟨between, written⟩ := keeps.reaches run
  refine ⟨?_, between.recovered named apart tended.wf hp hb, fun ends => ?_⟩
  · obtain ⟨wf, x, y, hp, hb, -⟩ := between
    exact ⟨wf, ⟨x, hp⟩, ⟨y, hb⟩⟩
  · exact recovered_present (written _ ends rfl)

/-- Undoing an interrupted write once more makes no difference. -/
theorem Tended.recover (tended : Tended p fs) (named : p.fileName? = some name)
    (other : p.extension? ≠ some (Utf8.encode "bak")) :
    Tended p ((recover p).run fs).2 ∧ recovered p ((recover p).run fs).2 = recovered p fs := by
  have apart := location_apart named other
  obtain ⟨y, hb⟩ := tended.aside
  -- the backup is moved only if the file is missing; afterwards nothing is left to undo
  by_cases moves : (!fs.exists? p && fs.exists? (backup p)) = true
  · cases moved : fs.rename (backup p) p with
    | error e =>
      have same : ((AtomicWrite.recover p).run fs).2 = fs := by
        rw [recover_run, if_pos moves, moved]
        rfl
      rw [same]
      exact ⟨tended, rfl⟩
    | ok after =>
      have done : ((AtomicWrite.recover p).run fs).2 = after := by
        rw [recover_run, if_pos moves, moved]
        rfl
      rw [hb.exists?_eq, Bool.and_eq_true, Option.isSome_iff_exists] at moves
      obtain ⟨-, content, rfl⟩ := moves
      obtain ⟨edited, gone, holds, -⟩ := rename_ok tended.wf hb apart.symm moved
      rw [done]
      refine ⟨⟨edited.wf, ⟨_, holds⟩, ⟨_, gone⟩⟩, ?_⟩
      rw [recovered_present holds, recovered, done, holds.read_eq]
  · have same : ((AtomicWrite.recover p).run fs).2 = fs := by
      rw [recover_run, if_neg moves]
    rw [same]
    exact ⟨tended, rfl⟩

end AtomicWrite

namespace Memento

open AtomicWrite (Tended recovered)
open FileSystem.Script (Reaches)
open Json (Members)

variable {p : FilePath} {fs fs' : FileSystem} {m : Memento}

/-- The values that the next client finds. A file that is missing or no text has none. -/
def stored (p : FilePath) (fs : FileSystem) : Members :=
  match (recovered p fs).bind Utf8.decode? with
  | some text => parse text
  | none => []

/-- The file in which the program keeps its memento has a name, and not that of a backup. -/
theorem place_named {place : CommandLine.Place} (file : place.memento = some p) :
    p.fileName? = some (Utf8.encode "state.json") ∧ p.extension? ≠ some (Utf8.encode "bak") := by
  have plain : FilePath.PlainName (Utf8.encode "state.json") := ⟨by decide +kernel, by decide +kernel⟩
  have named : p.fileName? = some (Utf8.encode "state.json") := by
    obtain ⟨home, -, rfl⟩ := Option.map_eq_some_iff.mp file
    exact FilePath.fileName?_join plain
  refine ⟨named, ?_⟩
  rw [FilePath.extension?, named]
  decide +kernel

theorem load_ok (loaded : load fs p = (.ok m, fs')) :
    m = ⟨some p, stored p fs⟩ ∧ fs' = ((AtomicWrite.recover p).run fs).2 := by
  have content : recovered p fs = (((AtomicWrite.recover p).run fs).2.read p).toOption := rfl
  simp only [load] at loaded
  generalize ((AtomicWrite.recover p).run fs).2 = after at loaded content
  rw [stored, content]
  simp only [FileSystem.readText] at loaded
  cases read : after.read p with
  | error e =>
    rw [read] at loaded
    cases e <;> cases loaded
    exact ⟨rfl, rfl⟩
  | ok bytes =>
    cases text : Utf8.decode? bytes <;> simp [read, text, bind, Except.bind] at loaded
    obtain ⟨rfl, rfl⟩ := loaded
    simp [Except.toOption, text]

theorem path_set (m : Memento) (key : String) (v : Json) : (m.set key v).path = m.path := by
  cases v <;> rfl

/-- Whether the values are read back from the text in which they are saved. -/
def Readable (m : Memento) : Prop :=
  parse (Json.obj m.values).pretty = m.values

instance (m : Memento) : Decidable m.Readable :=
  inferInstanceAs (Decidable (_ = _))

theorem stored_content (readable : m.Readable) (now : recovered p fs = some m.content) :
    stored p fs = m.values := by
  rw [stored, now, content, Option.bind_some, Utf8.decode?_encode]
  exact readable

end Memento

/-- A host that saves a memento by a write to its file, whichever calls of the write fail. -/
class FileHost (σ : Type) [Host σ] where
  files : σ → FileSystem
  saves (s : σ) (m : Memento) (p : FilePath) : m.path = some p →
    ∃ r, (AtomicWrite.write p m.content Memento.writeOptions).Reaches True (files s) (some r)
        (files (Host.saveMemento s m).2) ∧ ((Host.saveMemento s m).1 = .ok () → r = .ok ())

theorem Memento.save_reaches {m : Memento} {p : FilePath} (path : m.path = some p) (fs : FileSystem) :
    ∃ r, (AtomicWrite.write p m.content writeOptions).Reaches True fs (some r) (m.save fs).2 ∧
      ((m.save fs).1 = .ok () → r = .ok ()) := by
  have reaches := FileSystem.Script.run_reaches True (AtomicWrite.write p m.content writeOptions) fs
  rw [save, path]
  simp only
  generalize (AtomicWrite.write p m.content writeOptions).run fs = ended at reaches
  obtain ⟨r, after⟩ := ended
  cases r with
  | ok value => exact ⟨_, reaches, fun _ => rfl⟩
  | error e => exact ⟨_, reaches, nofun⟩

instance : FileHost FileStore where
  files := FileStore.files
  saves s _ _ path := Memento.save_reaches path s.files

/-- A host that cannot save at some attempts: for each a rule says whether and why. -/
structure FaultyHost (σ : Type) where
  host : σ
  attempts : Nat
  fault : Nat → Option IoError

namespace FaultyHost

variable {σ : Type} [Host σ]

instance : Host (FaultyHost σ) where
  workspace s := Store.workspace s.host
  inspect s := Store.inspect s.host
  write s w :=
    let (result, host) := Store.write s.host w
    (result, { s with host })
  readText s := Host.readText s.host
  saveMemento s m :=
    match s.fault s.attempts with
    | some e => (.error (.write ((m.path.map (·.text)).getD "") e), { s with attempts := s.attempts + 1 })
    | none =>
      let (result, host) := Host.saveMemento s.host m
      (result, { s with host, attempts := s.attempts + 1 })

/-- A save that fails does so at its first call, and leaves nothing. -/
instance [FileHost σ] : FileHost (FaultyHost σ) where
  files s := FileHost.files s.host
  saves s m p path := by
    cases fault : s.fault s.attempts with
    | some e =>
      refine ⟨.error e, ?_, ?_⟩
      · simp only [Host.saveMemento, fault]
        exact .fails e (.nothing _) (.ends _ _)
      · simp [Host.saveMemento, fault]
    | none =>
      obtain ⟨r, reaches, done⟩ := FileHost.saves s.host m p path
      refine ⟨r, ?_, ?_⟩
      · simpa only [Host.saveMemento, fault] using reaches
      · simpa only [Host.saveMemento, fault] using done

end FaultyHost

end LinterClient
