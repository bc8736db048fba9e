import LinterClient.Proofs.AtomicWrite

/-!
Scripts that nothing interferes with.

Only the file system refuses calls then, and it refuses the same call again. So a write that succeeds has
moved its temporary file onto the target at once.
-/

namespace LinterClient.FileSystem.Script

variable {α β : Type} {fs : FileSystem}

theorem run_bind (s : Script α) (f : α → Script β) (fs : FileSystem) :
    (s >>= f).run fs = (f (s.run fs).1).run (s.run fs).2 := by
  induction s generalizing fs with
  | done value => rfl
  | check p next ih => exact ih _ fs
  | read p next ih => exact ih _ fs
  | temporary directory others next ih =>
    have unfolded : (Script.temporary directory others next >>= f) =
        .temporary directory others fun r => next r >>= f := rfl
    rw [unfolded]
    simp only [run]
    split
    · exact ih _ _
    · exact ih _ _
  | call c next ih =>
    have unfolded : (Script.call c next >>= f) = .call c fun r => next r >>= f := rfl
    rw [unfolded]
    simp only [run]
    split
    · exact ih _ _
    · exact ih _ _

/-- What holds of a script's result and of what it leaves. -/
def Ends (post : α → FileSystem → Prop) (s : Script α) (fs : FileSystem) : Prop :=
  post (s.run fs).1 (s.run fs).2

variable {post : β → FileSystem → Prop}

theorem Ends.weaken {weaker : β → FileSystem → Prop} {s : Script β} (ends : Ends post s fs)
    (result : ∀ value fs, post value fs → weaker value fs) : Ends weaker s fs :=
  result _ _ ends

theorem Ends.bind {s : Script α} {f : α → Script β}
    (ends : Ends (fun value fs => Ends post (f value) fs) s fs) : Ends post (s >>= f) fs := by
  rw [Ends, run_bind]
  exact ends

theorem Ends.readText {p : FilePath} {f : Except IoError String → Script β}
    (ends : Ends post (f (fs.readText p)) fs) : Ends post (Script.readText p >>= f) fs :=
  .bind ends

theorem Ends.attempt {c : Call} {f : Except IoError Unit → Script β}
    (succeeds : ∀ after, c.perform fs = .ok after → Ends post (f (.ok ())) after)
    (fails : ∀ e, c.perform fs = .error e → Ends post (f (.error e)) fs) :
    Ends post (Script.attempt c >>= f) fs := by
  refine .bind ?_
  simp only [Ends, Script.attempt, run]
  cases done : c.perform fs with
  | ok after => exact succeeds after done
  | error e => exact fails e done

/-- A step that may throw, and what follows if it does not. -/
theorem Ends.bindExcept {x : ExceptT IoError Script α} {f : α → ExceptT IoError Script β}
    {post : Except IoError β → FileSystem → Prop}
    (ends : Ends (fun r fs => match r with
      | .ok value => Ends post (f value).run fs
      | .error e => post (.error e) fs) x.run fs) :
    Ends post (x >>= f).run fs := by
  rw [ExceptT.run_bind]
  refine .bind ?_
  rw [Ends] at ends ⊢
  split at ends
  · rename_i value result
    rw [result]
    exact ends
  · rename_i e result
    rw [result]
    exact ends

theorem Ends.require {c : Call} {f : Unit → ExceptT IoError Script β}
    {post : Except IoError β → FileSystem → Prop}
    (succeeds : ∀ after, c.perform fs = .ok after → Ends post (f ()).run after)
    (fails : ∀ e, post (.error e) fs) : Ends post (Script.require c >>= f).run fs := by
  refine .bindExcept ?_
  have run : (Script.require c).run = Script.attempt c := rfl
  rw [run]
  simp only [Ends, Script.attempt, Script.run]
  cases done : c.perform fs with
  | ok after => exact succeeds after done
  | error e => exact fails e

theorem Ends.temporary {directory : FilePath} {others : List FilePath}
    {f : FilePath → ExceptT IoError Script β} {post : Except IoError β → FileSystem → Prop}
    (creates : ∀ p made, Temporary directory others p → fs.createFile p = .ok made → Ends post (f p).run made)
    (fails : ∀ e, post (.error e) fs) :
    Ends post (Script.createTemporary directory others >>= f).run fs := by
  refine .bindExcept ?_
  simp only [Ends, Script.createTemporary, ExceptT.run, ExceptT.mk, Script.run]
  cases made : fs.createTemporary directory others with
  | error e => exact fails e
  | ok pair =>
    obtain ⟨temporary, created⟩ := createTemporary_ok made
    exact creates _ _ temporary created

end LinterClient.FileSystem.Script

namespace LinterClient.AtomicWrite

open FileSystem FileSystem.Script

variable {p temp : FilePath} {fs : FileSystem} {bytes : List UInt8}

/-- A path that a file can be moved onto, or one that leads above its own directory. -/
def Ready (p : FilePath) (fs : FileSystem) : Prop :=
  (∃ x, fs.Holds p x) ∨ p.fileName? = none ∧ fs.entryAt? p.location = some .directory

/-- What a write leaves that has succeeded: its file has the new content, and all others have theirs. -/
structure Replaced (p : FilePath) (new : List UInt8) (fs fs' : FileSystem) : Prop where
  wf : fs'.WellFormed
  holds : fs'.Holds p (some new)
  others {q : FilePath} {content : List UInt8} : q.location ≠ p.location →
    fs.Holds q (some content) → fs'.Holds q (some content)

/-- A write that has succeeded. -/
def Lands (p : FilePath) (new : List UInt8) (fs : FileSystem) (r : Except IoError Unit)
    (fs' : FileSystem) : Prop :=
  r = .ok () → Replaced p new fs fs'

/-- The end of a write, once its temporary file is there. -/
def Moved (temp p : FilePath) (new : List UInt8) (fs : FileSystem) (r : Except IoError Unit)
    (fs' : FileSystem) : Prop :=
  r = .ok () → fs.Edited fs' [temp.location, p.location] ∧ fs'.Holds p (some new)

theorem Moved.after {appended fs' : FileSystem} {r : Except IoError Unit}
    (edited : fs.Edited appended [temp.location]) (moved : Moved temp p bytes appended r fs') :
    Moved temp p bytes fs r fs' := by
  intro done
  obtain ⟨more, holds⟩ := moved done
  refine ⟨⟨more.wf, fun l other => (more.same l other).trans (edited.same l ?_)⟩, holds⟩
  exact fun here => other (List.mem_cons.mpr (.inl (List.mem_singleton.mp here)))

theorem Ready.edited {fs' : FileSystem} (ready : Ready p fs) (wf : fs.WellFormed)
    (edited : fs.Edited fs' [temp.location]) (target : temp.location ≠ p.location) : Ready p fs' := by
  have other : p.location ∉ [temp.location] := by simpa using target.symm
  rcases ready with ⟨x, holds⟩ | ⟨unnamed, stands⟩
  · exact .inl ⟨x, edited.holds wf other holds⟩
  · exact .inr ⟨unnamed, (edited.same _ other).trans stands⟩

theorem replace_ends (wf : fs.WellFormed) (ready : Ready p fs) (ht : fs.Holds temp (some bytes))
    (target : temp.location ≠ p.location) : (replace temp p).Ends (Moved temp p bytes fs) fs := by
  rcases ready with ⟨x, hp⟩ | ⟨unnamed, stands⟩
  · unfold replace
    refine .attempt ?_ ?_
    · intro after done
      obtain ⟨edited, -, holds, -⟩ := rename_ok wf ht target done
      exact fun _ => ⟨edited, holds⟩
    · intro e refused
      cases x with
      | none =>
        refine .bind ?_
        have missing : fs.exists? p = false := hp.exists?_eq
        simp [Ends, FileSystem.Script.exists?, Script.run, missing, Moved, pure]
      | some content =>
        -- a file can be moved onto a file
        obtain ⟨valid, plain, mode, stands⟩ := hp.file wf
        have open_ : fs.Reached p :=
          ⟨valid, fun above name whole => wf above name _ (whole ▸ stands), fun ending => absurd ending plain⟩
        obtain ⟨after, done⟩ := rename_file wf ht open_ plain (by simp [stands])
        simp [Call.perform, done] at refused
  · -- nothing is moved onto a directory
    have keeps : (replace temp p).Keeps False
        (fun fs' => fs'.WellFormed ∧ fs'.entryAt? p.location = some .directory) (Written p bytes) fs :=
      replace_directory unnamed ⟨wf, stands⟩ wf stands target ht
    obtain ⟨⟨wf', still⟩, written⟩ := keeps.reaches (run_reaches False _ fs)
    intro done
    obtain ⟨-, -, mode, file⟩ := (written _ rfl done).file wf'
    rw [still] at file
    cases file

theorem fill_ends (wf : fs.WellFormed) (ready : Ready p fs) (ht : fs.Holds temp (some []))
    (target : temp.location ≠ p.location) : (fill temp p bytes .default).run.Ends (Moved temp p bytes fs) fs := by
  have failed : ∀ e fs', Moved temp p bytes fs (.error e) fs' := by simp [Moved]
  refine Ends.require ?_ fun e => failed e _
  intro appended done
  obtain ⟨edited, full⟩ := append_ok wf ht done
  refine Ends.require ?_ fun e => failed e _
  rintro synced ⟨⟩
  exact (replace_ends edited.wf (ready.edited wf edited target) full target).weaken fun _ _ moved =>
    moved.after edited

/-- A path is ready for a write once its temporary file is there. -/
theorem ready_created {grown made : FileSystem} (file : fs.isDirectory p = false) (wf : fs.WellFormed)
    (added : fs.Grown grown (directory p).location) (spare : Spare p temp)
    (edited : grown.Edited made [temp.location]) (empty : made.Holds temp (some [])) : Ready p made := by
  cases named : p.fileName? with
  | some name =>
    obtain ⟨x, hp⟩ := holds_of_isDirectory file
    -- the file is not on the way to its own directory
    have outside : ¬ p.location <+: (directory p).location := by
      intro inside
      have long := inside.length_le
      rw [FilePath.location_named named, List.length_append, List.length_singleton] at long
      omega
    have target := spare.apart p (by simp)
    exact .inl ⟨x, edited.holds added.wf (by simpa using target.symm) (added.holds wf outside hp)⟩
  | none =>
    obtain ⟨name, back, below⟩ := spare_below named spare
    obtain ⟨-, -, mode, stands⟩ := empty.file edited.wf
    exact .inr ⟨named, edited.wf.above (below ▸ stands)⟩

/-- A write that succeeds leaves the new content, whatever is beside the file. -/
theorem write_ends (wf : fs.WellFormed) (file : fs.isDirectory p = false) :
    (write p bytes .default).Ends (Lands p bytes fs) fs := by
  have failed : ∀ e fs', Lands p bytes fs (.error e) fs' := by simp [Lands]
  refine Ends.require ?_ fun e => failed e _
  intro grown done
  have added := createDirectories_ok wf done
  refine Ends.temporary ?_ fun e => failed e _
  intro temp made spare created
  have slashless : ¬ temp.endsWithSlash := by
    obtain ⟨last, plain, rfl⟩ := spare.beside
    simp [FilePath.endsWithSlash_join plain]
  obtain ⟨edited, empty, unused⟩ := createFile_ok added.wf slashless created
  have target := spare.apart p (by simp)
  refine .bind ?_
  refine .bind ?_
  refine (fill_ends edited.wf (ready_created file wf added spare edited empty) empty target).weaken ?_
  intro r fs' moved
  cases r with
  | ok value =>
    intro _
    obtain ⟨change, holds⟩ := moved rfl
    refine ⟨change.wf, holds, fun {q content} other held => ?_⟩
    have still : grown.Holds q (some content) := by
      obtain ⟨mode, seen⟩ := held
      exact ⟨mode, (added.stat_file wf).mpr seen⟩
    have beside : q.location ≠ temp.location := by
      obtain ⟨-, -, mode, stands⟩ := still.file added.wf
      intro same
      rw [same, unused] at stands
      cases stands
    exact change.holds edited.wf (by simp [other, beside]) (edited.holds added.wf (by simpa using beside) still)
  | error e =>
    change Ends (Lands p bytes fs) (ignore (.remove _) >>= fun _ => pure (.error e)) fs'
    exact Ends.bind (failed e _)

end LinterClient.AtomicWrite
