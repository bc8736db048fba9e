import LinterClient.Proofs.Migration.Changes
import LinterClient.Proofs.Store.Comments
import LinterClient.Proofs.Store.Locality

/-!
What a migration does to the comments of settings files.

Each change replaces the whole mapping that the linter's action is set in, and the comments in and
around it with it. A file keeps all its comments exactly if no replaced entry has any.
-/

namespace LinterClient.Migration

open AtomicWrite (backup)
open Toml (comments)

variable {resource : Option Url} {p : FilePath} {text : String} {changes : List Change}

/-- Failures are noted behind those that were noted before. -/
theorem failures_prefix {σ : Type} [Store σ] (resource : Option Url) (changes : List Change)
    (state : σ × List Failure) : state.2 <+: (changes.foldl (writeChange resource) state).2 := by
  induction changes generalizing state with
  | nil => exact List.prefix_refl _
  | cons c rest ih =>
    refine List.IsPrefix.trans ?_ (ih _)
    rw [writeChange]
    dsimp only
    split
    · exact List.prefix_refl _
    · exact List.prefix_append _ _

/-- In a run without failures each write succeeds. -/
theorem writeChange_succeeds {σ : Type} [Store σ] {s : σ} {c : Change}
    (done : ((c :: changes).foldl (writeChange resource) (s, [])).2 = []) :
    let w := c.toWrite resource (Store.inspect s c.key resource)
    (Store.write s w).1 = .ok () ∧
      (c :: changes).foldl (writeChange resource) (s, []) =
        changes.foldl (writeChange resource) ((Store.write s w).2, []) := by
  intro w
  cases result : (Store.write s w).1 with
  | ok value =>
    have next : writeChange resource (s, []) c = ((Store.write s w).2, []) := by
      rw [writeChange]
      dsimp only
      rw [result]
    exact ⟨rfl, by rw [List.foldl_cons, next]⟩
  | error e =>
    have next : (writeChange resource (s, []) c).2 = [⟨c.key, c.tier, e⟩] := by
      rw [writeChange]
      dsimp only
      rw [result]
      rfl
    have noted := failures_prefix resource changes (writeChange resource (s, []) c)
    rw [← List.foldl_cons, done, next] at noted
    simp at noted

/-- The comments of a file that the writes of a migration replace, one after the other. -/
def replacedComments (resource : Option Url) (p : FilePath) : List Change → FileStore → Multiset String
  | [], _ => 0
  | c :: rest, s =>
    let w := c.toWrite resource (s.inspect c.key resource)
    s.replacedComments p w + replacedComments resource p rest (s.write w).2

/-- What writes without failures leave of the comments of a file. -/
theorem writeChanges_comments {s : FileStore} (wf : s.files.WellFormed)
    (read : s.files.readText p = .ok text)
    (spared : ∀ t q, s.path? resource t = some q → ¬ (backup q).location <+: p.location)
    (mappings : ∀ c ∈ changes, ∀ current, ∃ m, (c.toWrite resource current).value = some (.obj m))
    (done : (changes.foldl (writeChange resource) (s, [])).2 = []) :
    ∃ after, (changes.foldl (writeChange resource) (s, [])).1.files.readText p = .ok after ∧
      comments text = comments after + replacedComments resource p changes s := by
  induction changes generalizing s text with
  | nil => exact ⟨text, read, (add_zero _).symm⟩
  | cons c rest ih =>
    obtain ⟨written, next⟩ := writeChange_succeeds done
    rw [next] at done ⊢
    obtain ⟨m, value⟩ := mappings c List.mem_cons_self (s.inspect c.key resource)
    obtain ⟨wf', middle, read', first⟩ := FileStore.write_comments wf read (spared _) value written
    obtain ⟨after, read'', later⟩ :=
      ih wf' read' spared (fun d member => mappings d (List.mem_cons_of_mem _ member)) done
    refine ⟨after, read'', ?_⟩
    rw [first, later, replacedComments, add_assoc]
    exact congrArg _ (add_comm _ _)

/-- A migration without failures takes exactly those comments from a file that stand in or around what its
writes replace. -/
theorem update_comments {s : FileStore} (snapshot : Snapshot) (wf : s.files.WellFormed)
    (read : s.files.readText p = .ok text)
    (spared : ∀ t q, s.path? resource t = some q → ¬ (backup q).location <+: p.location)
    (done : (update (record snapshot resource) s).2 = []) :
    ∃ after, (update (record snapshot resource) s).1.files.readText p = .ok after ∧
      comments text =
        comments after + replacedComments resource p (record snapshot resource).changes s ∧
      (comments text ≤ comments after ↔
        replacedComments resource p (record snapshot resource).changes s = 0) := by
  obtain ⟨after, read', sum⟩ := writeChanges_comments wf read spared
    (fun c member current => (changeOf_of_mem member).toWrite_value current) done
  refine ⟨after, read', sum, ?_⟩
  rw [sum, add_le_iff_nonpos_right, Multiset.le_zero]

/-- A comment between the members of the mapping that the linter's action is set in. -/
def commentedMapping : String :=
  "[eslint]\nautoFixOnSave = true\n\n[editor.codeActionsOnSave]\n# imports\n\"source.organizeImports\" = true\n"

def commentedStore : FileStore := .ofUser (FileStore.single commentedMapping)

def commentedRecord : Recorded := record (Snapshot.take commentedStore none) none

/-- Nothing fails, and the comment is gone. -/
theorem update_comments_mapping :
    (update commentedRecord commentedStore).2 = [] ∧ comments commentedMapping = {" imports"} ∧
      ∃ after, (update commentedRecord commentedStore).1.files.readText commentedStore.globalPath = .ok after ∧
        comments after = 0 := by
  have done : (update commentedRecord commentedStore).2 = [] := by decide +kernel
  have before : comments commentedMapping = {" imports"} := by decide +kernel
  have lost : replacedComments none commentedStore.globalPath commentedRecord.changes commentedStore =
      {" imports"} := by decide +kernel
  have wf : commentedStore.files.WellFormed := by
    refine FileSystem.wellFormed_of_entries fun entry member => ?_
    rw [List.mem_singleton.mp member]
    rfl
  have read : commentedStore.files.readText commentedStore.globalPath = .ok commentedMapping :=
    FileStore.readText_single _
  have spared (t : Tier) (q : FilePath) (tier : commentedStore.path? none t = some q) :
      ¬ (backup q).location <+: commentedStore.globalPath.location := by
    cases t with
    | global =>
      cases tier
      change ¬ (backup AtomicWrite.asideFile).location <+: AtomicWrite.asideFile.location
      rw [AtomicWrite.backup_asideFile]
      decide
    | workspace => cases tier
    | folder => cases tier
  obtain ⟨after, now, sum, -⟩ := update_comments (Snapshot.take commentedStore none) wf read spared done
  refine ⟨done, before, after, now, ?_⟩
  change comments commentedMapping = comments after +
    replacedComments none commentedStore.globalPath commentedRecord.changes commentedStore at sum
  rw [before, lost] at sum
  simpa using sum

end LinterClient.Migration
