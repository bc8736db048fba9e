import LinterClient.AtomicWrite
import LinterClient.Proofs.FileSystem.Interruption

/-!
Writes that are interrupted.

At every point of a write the file or its backup holds a whole content, the old one or the new one. The
file is missing only while its old content is aside, and then recovery moves that back.
-/

namespace LinterClient.AtomicWrite

open FileSystem FileSystem.Script

/-- How far a write has come, by what the file and its backup hold. -/
inductive Stage (old kept : Option (List UInt8)) (new : List UInt8) :
    Option (List UInt8) → Option (List UInt8) → Prop
  | before : Stage old kept new old kept
  | cleared (content : List UInt8) (present : old = some content) :
      Stage old kept new (some content) none
  | aside (content : List UInt8) (present : old = some content) :
      Stage old kept new none (some content)
  | replaced (left : Option (List UInt8)) : Stage old kept new (some new) left

/-- A write has come to one of its stages. -/
def Between (p : FilePath) (old kept : Option (List UInt8)) (new : List UInt8) (fs : FileSystem) :
    Prop :=
  fs.WellFormed ∧ ∃ x y, fs.Holds p x ∧ fs.Holds (backup p) y ∧ Stage old kept new x y

/-- What the file holds after an interrupted write to it was undone. -/
def recovered (p : FilePath) (fs : FileSystem) : Option (List UInt8) :=
  (((recover p).run fs).2.read p).toOption

/-- A write that succeeds leaves the new content. -/
def Written (p : FilePath) (new : List UInt8) (r : Except IoError Unit) (fs : FileSystem) : Prop :=
  r = .ok () → fs.Holds p (some new)

variable {p temp : FilePath} {fs fs' : FileSystem} {blind : Prop} {bytes : List UInt8} {o : Options}
  {old kept x y : Option (List UInt8)}

/-! ## Replacing -/

theorem Between.edited {changed : List Location} (between : Between p old kept bytes fs)
    (edited : fs.Edited fs' changed) (file : p.location ∉ changed)
    (aside : (backup p).location ∉ changed) : Between p old kept bytes fs' := by
  obtain ⟨wf, x, y, hp, hb, stage⟩ := between
  exact ⟨edited.wf, x, y, edited.holds wf file hp, edited.holds wf aside hb, stage⟩

section Replacing

variable (apart : p.location ≠ (backup p).location) (target : temp.location ≠ p.location)
  (spare : temp.location ≠ (backup p).location)

include apart target spare

/-- The second attempt, with the old file aside. It is moved back if the attempt fails. -/
theorem retry_keeps {content : List UInt8} (wf : fs.WellFormed) (hp : fs.Holds p none)
    (hb : fs.Holds (backup p) (some content)) (ht : fs.Holds temp (some bytes)) :
    Keeps blind (Between p (some content) kept bytes) (Written p bytes) (do
      match ← attempt (.rename temp p) with
      | .error e =>
        ignore (.rename (backup p) p)
        pure (.error e)
      | .ok () =>
        ignore (.remove (backup p))
        pure (.ok ())) fs := by
  have aside : Between p (some content) kept bytes fs := ⟨wf, _, _, hp, hb, .aside content rfl⟩
  refine Keeps.attempt aside ?_ ?_
  · intro after done
    obtain ⟨edited, -, holds, -⟩ := rename_ok wf ht target done
    have left := edited.holds wf (by simp [apart.symm, spare.symm]) hb
    have replaced : Between p (some content) kept bytes after :=
      ⟨edited.wf, _, _, holds, left, .replaced _⟩
    refine Keeps.ignore replaced ?_ ?_
    · intro last removed
      obtain ⟨cleared, gone, -⟩ := remove_ok edited.wf removed
      have still := cleared.holds edited.wf (by simpa using apart) holds
      exact .pure ⟨cleared.wf, _, _, still, gone, .replaced _⟩ fun _ => still
    · intro last leaves
      obtain rfl := leaves.remove_eq
      exact .pure replaced fun _ => holds
  · intro e left leaves
    obtain rfl := leaves.rename_eq
    refine Keeps.ignore aside ?_ ?_
    · intro last moved
      obtain ⟨edited, gone, holds, -⟩ := rename_ok wf hb apart.symm moved
      exact .pure ⟨edited.wf, _, _, holds, gone, .cleared content rfl⟩ (by simp [Written])
    · intro last leaves
      obtain rfl := leaves.rename_eq
      exact .pure aside (by simp [Written])

/-- Replacing a file goes from stage to stage. -/
theorem replace_keeps (wf : fs.WellFormed) (hp : fs.Holds p old) (hb : fs.Holds (backup p) kept)
    (ht : fs.Holds temp (some bytes)) :
    (replace temp p).Keeps blind (Between p old kept bytes) (Written p bytes) fs := by
  have before : Between p old kept bytes fs := ⟨wf, _, _, hp, hb, .before⟩
  unfold replace
  refine Keeps.attempt before ?_ ?_
  · intro after done
    obtain ⟨edited, -, holds, -⟩ := rename_ok wf ht target done
    have left := edited.holds wf (by simp [apart.symm, spare.symm]) hb
    exact .pure ⟨edited.wf, _, _, holds, left, .replaced _⟩ fun _ => holds
  · intro e left leaves
    obtain rfl := leaves.rename_eq
    have refused : Keeps blind (Between p old kept bytes) (Written p bytes)
        (pure (.error e)) left := .pure before (by simp [Written])
    refine Keeps.exists? before ?_ fun _ => refused
    rw [hp.exists?_eq]
    cases old with
    | none => exact refused
    | some content =>
      -- the rest, whether or not the old backup could be removed
      have moving : ∀ (now : FileSystem) (y : Option (List UInt8)), now.WellFormed →
          now.Holds p (some content) → now.Holds (backup p) y → now.Holds temp (some bytes) →
          Stage (some content) kept bytes (some content) y →
          Keeps blind (Between p (some content) kept bytes) (Written p bytes) (do
            match ← attempt (.rename p (backup p)) with
            | .error e => pure (.error e)
            | .ok () =>
              match ← attempt (.rename temp p) with
              | .error e =>
                ignore (.rename (backup p) p)
                pure (.error e)
              | .ok () =>
                ignore (.remove (backup p))
                pure (.ok ())) now := by
        intro now y wf hp hb ht stage
        have here : Between p (some content) kept bytes now := ⟨wf, _, _, hp, hb, stage⟩
        refine Keeps.attempt here ?_ ?_
        · intro after moved
          obtain ⟨edited, gone, holds, -⟩ := rename_ok wf hp apart moved
          exact retry_keeps apart target spare edited.wf gone holds
            (edited.holds wf (by simp [target, spare]) ht)
        · intro e left leaves
          obtain rfl := leaves.rename_eq
          exact .pure here (by simp [Written])
      refine Keeps.ignore before ?_ ?_
      · intro after removed
        obtain ⟨edited, gone, -⟩ := remove_ok wf removed
        exact moving after none edited.wf (edited.holds wf (by simpa using apart) hp) gone
          (edited.holds wf (by simpa using spare) ht) (.cleared content rfl)
      · intro after leaves
        obtain rfl := leaves.remove_eq
        exact moving after kept wf hp hb ht .before

end Replacing

/-! ## Writing -/

/-- The name of a temporary file for a write. -/
abbrev Spare (p temp : FilePath) : Prop := Temporary (directory p) [p, backup p] temp

/-- What has to be shown about a write: what holds before its temporary file is there, what holds while
that is filled, and that replacing keeps what is `good`. -/
structure Guards (blind : Prop) (p : FilePath) (bytes : List UInt8) (good begun : FileSystem → Prop)
    (beside : FilePath → FileSystem → Prop) : Prop where
  wf : ∀ fs, good fs → fs.WellFormed
  begins : ∀ fs, begun fs → good fs
  grows : ∀ fs fs' l, begun fs → fs.Grown fs' l → l <+: (directory p).location → begun fs'
  creates : ∀ temp fs made, Spare p temp → begun fs → fs.Edited made [temp.location] →
    made.Holds temp (some []) → beside temp made
  fills : ∀ temp fs, beside temp fs → good fs
  stays : ∀ temp fs fs', Spare p temp → beside temp fs → fs.Edited fs' [temp.location] →
    beside temp fs'
  replaces : ∀ temp fs, Spare p temp → beside temp fs → fs.Holds temp (some bytes) →
    (replace temp p).Keeps blind good (Written p bytes) fs
  cleans : ∀ temp fs fs', Spare p temp → good fs → fs.Edited fs' [temp.location] → good fs'
  marks : ∀ fs fs', good fs → fs.Holds p (some bytes) → fs.Edited fs' [p.location] →
    fs'.Holds p (some bytes) → good fs'

section Writing

variable {good begun : FileSystem → Prop} {beside : FilePath → FileSystem → Prop}

theorem fill_keeps (guards : Guards blind p bytes good begun beside) (spare : Spare p temp)
    (start : beside temp fs) (empty : fs.Holds temp (some [])) :
    (fill temp p bytes o).run.Keeps blind good (Written p bytes) fs := by
  have wf : ∀ fs, beside temp fs → fs.WellFormed :=
    fun fs here => guards.wf fs (guards.fills temp fs here)
  have failed : ∀ e fs, Written p bytes (.error e) fs := by simp [Written]
  have filled : ∀ fs, beside temp fs → fs.Holds temp (some bytes) →
      (do
        if o.sync then require (.sync temp)
        ExceptT.mk (replace temp p) : ExceptT IoError Script Unit).run.Keeps blind good
          (Written p bytes) fs := by
    intro fs here holds
    have replaces := guards.replaces temp fs spare here holds
    cases o.sync with
    | false => exact replaces
    | true =>
      refine Keeps.require (guards.fills temp fs here) ?_ ?_
      · rintro after ⟨⟩
        exact replaces
      · intro e left leaves
        cases leaves
        exact ⟨guards.fills temp fs here, failed e fs⟩
  have written : ∀ fs, beside temp fs → fs.Holds temp (some []) →
      (do
        require (.append temp bytes)
        if o.sync then require (.sync temp)
        ExceptT.mk (replace temp p) : ExceptT IoError Script Unit).run.Keeps blind good
          (Written p bytes) fs := by
    intro fs here holds
    refine Keeps.require (guards.fills temp fs here) ?_ ?_
    · intro after done
      obtain ⟨edited, now⟩ := append_ok (wf fs here) holds done
      exact filled after (guards.stays temp fs after spare here edited) now
    · intro e left leaves
      cases leaves with
      | nothing => exact ⟨guards.fills temp fs here, failed e fs⟩
      | part size done =>
        obtain ⟨edited, -⟩ := append_ok (wf fs here) holds done
        exact ⟨guards.fills temp _ (guards.stays temp fs _ spare here edited), failed e _⟩
  unfold fill setMode
  cases o.ownerOnly with
  | false => exact written fs start empty
  | true =>
    refine Keeps.require (guards.fills temp fs start) ?_ ?_
    · intro after done
      obtain ⟨edited, now⟩ := setMode_ok (wf fs start) empty done
      exact written after (guards.stays temp fs after spare start edited) now
    · intro e left leaves
      cases leaves
      exact ⟨guards.fills temp fs start, failed e fs⟩

theorem setMode_keeps (guards : Guards blind p bytes good begun beside) (now : good fs)
    (holds : fs.Holds p (some bytes)) :
    (setMode o p).run.Keeps blind good (Written p bytes) fs := by
  unfold setMode
  cases o.ownerOnly with
  | false => exact .pure now fun _ => holds
  | true =>
    refine ⟨now, ?_, ?_⟩
    · intro after done
      obtain ⟨edited, still⟩ := setMode_ok (guards.wf fs now) holds done
      exact ⟨guards.marks fs after now holds edited still, fun _ => still⟩
    · intro e left leaves
      cases leaves
      exact ⟨now, by simp [Written]⟩

/-- What the guards say of the parts holds of a write as a whole. -/
theorem write_keeps (guards : Guards blind p bytes good begun beside) (start : begun fs) :
    (write p bytes o).Keeps blind good (Written p bytes) fs := by
  have failed : ∀ e fs, Written p bytes (.error e) fs := by simp [Written]
  have inside : ∀ fs, begun fs →
      (do
        let temp ← createTemporary (directory p) [p, backup p]
        match ← ExceptT.lift (fill temp p bytes o).run with
        | .error e => do
          ExceptT.lift (ignore (.remove temp))
          throw e
        | .ok () => setMode o p : ExceptT IoError Script Unit).run.Keeps blind good
          (Written p bytes) fs := by
    intro fs start
    have wf := guards.wf fs (guards.begins fs start)
    refine Keeps.temporary (guards.begins fs start) ?_ fun e => failed e fs
    intro temp made spare done
    obtain ⟨name, plain, rfl⟩ := spare.beside
    obtain ⟨edited, empty, -⟩ :=
      createFile_ok wf (by simp [FilePath.endsWithSlash_join plain]) done
    have here := guards.creates _ fs made spare start edited empty
    refine Keeps.bind ?_
    refine Keeps.bind ?_
    refine (fill_keeps guards spare here empty).weaken ?_
    intro r fs now written
    refine ⟨now, ?_⟩
    cases r with
    | ok value => exact setMode_keeps guards now (written rfl)
    | error e =>
      refine ⟨now, ?_, ?_⟩
      · intro after removed
        obtain ⟨edited, -, -⟩ := remove_ok (guards.wf fs now) removed
        have after_ := guards.cleans _ fs after spare now edited
        exact ⟨after_, failed e after⟩
      · intro e' left leaves
        obtain rfl := leaves.remove_eq
        exact ⟨now, failed e left⟩
  unfold write
  cases o.createParents with
  | false => exact inside fs start
  | true =>
    have wf := guards.wf fs (guards.begins fs start)
    refine Keeps.require (guards.begins fs start) ?_ ?_
    · intro after done
      exact inside after (guards.grows fs after _ start (createDirectories_ok wf done)
        (List.prefix_refl _))
    · intro e left leaves
      cases leaves with
      | nothing => exact ⟨guards.begins fs start, failed e fs⟩
      | above depth made =>
        have grown := createDirectories_go wf (entryAt?_nil fs) made
        rw [List.nil_append] at grown
        have kept := guards.grows fs left _ start grown (List.take_prefix _ _)
        exact ⟨guards.begins left kept, failed e left⟩

end Writing

/-! ## Recovery -/

theorem recover_run (p : FilePath) (fs : FileSystem) :
    ((recover p).run fs).2 = if !fs.exists? p && fs.exists? (backup p) then
      ((fs.rename (backup p) p).toOption).getD fs else fs := by
  have decides : (recover p).run fs = Script.run fs
      (if !fs.exists? p && fs.exists? (backup p) then ignore (.rename (backup p) p) else pure ()) :=
    rfl
  rw [decides]
  split
  · simp only [ignore, Script.run, Call.perform]
    cases fs.rename (backup p) p <;> rfl
  · rfl

/-- Recovery does nothing for a file that is there, unless it overlooks the file. -/
theorem recover_keeps {good : FileSystem → Prop} {post : Unit → FileSystem → Prop} (now : good fs)
    (done : post () fs) (present : fs.exists? p = true)
    (seen : blind → fs.exists? (backup p) = false) : (recover p).Keeps blind good post fs := by
  have ends : Keeps blind good post (pure ()) fs := .pure now done
  unfold recover
  refine Keeps.exists? now ?_ fun missed => ?_
  · rw [present]
    exact Keeps.exists? now ends fun _ => ends
  · refine Keeps.exists? now ?_ fun _ => ends
    rw [seen missed]
    exact ends

theorem recovered_present {content : List UInt8} (holds : fs.Holds p (some content)) :
    recovered p fs = some content := by
  rw [recovered, recover_run, holds.exists?_eq]
  simpa using holds.read_eq

theorem recovered_absent (hp : fs.Holds p none) (hb : fs.Holds (backup p) none) :
    recovered p fs = none := by
  rw [recovered, recover_run, hp.exists?_eq, hb.exists?_eq]
  simpa using hp.read_eq

/-- A path at which a file can be. -/
def Fit (p : FilePath) : Prop := p.Valid ∧ ¬ p.endsWithSlash

theorem recovered_aside {name content : List UInt8} (named : p.fileName? = some name)
    (apart : p.location ≠ (backup p).location) (wf : fs.WellFormed) (hp : fs.Holds p none)
    (hb : fs.Holds (backup p) (some content)) (fit : Fit p) :
    recovered p fs = some content := by
  obtain ⟨valid, plain⟩ := fit
  have empty : fs.entryAt? p.location = none := by
    cases stands : fs.entryAt? p.location with
    | none => rfl
    | some e =>
      exact absurd ((stat_eq_ok wf).mpr ⟨valid, stands, fun ending => absurd ending plain⟩) (hp e)
  obtain ⟨file, -, -, beside⟩ := FilePath.backup_named named
  have parent : fs.entryAt? (directory p).location = some .directory := by
    obtain ⟨-, -, mode, stands⟩ := hb.file wf
    exact wf _ file _ (beside ▸ stands)
  have reached : fs.Reached p := by
    refine ⟨valid, ?_, fun ending => absurd ending plain⟩
    intro above last whole
    rw [FilePath.location_named named] at whole
    exact (List.append_inj' whole rfl).1 ▸ parent
  obtain ⟨fs', moved⟩ := rename_file wf hb reached plain (by simp [empty])
  obtain ⟨-, -, holds, -⟩ := rename_ok wf hb apart.symm moved
  rw [recovered, recover_run, hp.exists?_eq, hb.exists?_eq, moved]
  simpa [Except.toOption] using holds.read_eq

theorem read_unfit (unfit : ¬ Fit p) (wf : fs.WellFormed) : (fs.read p).toOption = none := by
  cases seen : (fs.read p).toOption with
  | none => rfl
  | some content =>
    obtain ⟨valid, plain, -⟩ := (read_eq_some.mp seen).file wf
    exact absurd ⟨valid, plain⟩ unfit

theorem recovered_unfit (unfit : ¬ Fit p) (wf : fs.WellFormed) (hp : fs.Holds p none)
    {y : Option (List UInt8)} (hb : fs.Holds (backup p) y)
    (apart : p.location ≠ (backup p).location) : recovered p fs = none := by
  cases y with
  | none => exact recovered_absent hp hb
  | some content =>
    rw [recovered, recover_run]
    split
    · cases moved : fs.rename (backup p) p with
      | error e => exact read_unfit unfit wf
      | ok after =>
        obtain ⟨edited, -, -, -⟩ := rename_ok wf hb apart.symm moved
        exact read_unfit unfit edited.wf
    · exact read_unfit unfit wf

/-- What recovery brings about depends on the file and its backup only. -/
theorem recovered_eq {name : List UInt8} (named : p.fileName? = some name)
    (apart : p.location ≠ (backup p).location) (wf : fs.WellFormed) (hp : fs.Holds p x)
    (hb : fs.Holds (backup p) y) [Decidable (Fit p)] :
    recovered p fs = (x <|> if Fit p then y else none) := by
  cases x with
  | some content => simpa using recovered_present hp
  | none =>
    by_cases fit : Fit p
    · rw [if_pos fit]
      cases y with
      | some content => simpa using recovered_aside named apart wf hp hb fit
      | none => simpa using recovered_absent hp hb
    · rw [if_neg fit]
      simpa using recovered_unfit fit wf hp hb apart

theorem Between.recovered {name : List UInt8} (named : p.fileName? = some name)
    (apart : p.location ≠ (backup p).location) (wf : fs.WellFormed) (hp : fs.Holds p old)
    (hb : fs.Holds (backup p) kept) (between : Between p old kept bytes fs') :
    recovered p fs' = recovered p fs ∨ recovered p fs' = some bytes := by
  classical
  obtain ⟨wf', x, y, hp', hb', stage⟩ := between
  have before := recovered_eq named apart wf hp hb
  have after := recovered_eq named apart wf' hp' hb'
  cases stage with
  | before => exact .inl (after.trans before.symm)
  | cleared content present =>
    left
    rw [after, before, present]
    rfl
  | aside content present =>
    left
    have fit : Fit p := by
      obtain ⟨valid, plain, -⟩ := Holds.file wf (present ▸ hp)
      exact ⟨valid, plain⟩
    rw [after, before, present, if_pos fit]
    rfl
  | replaced left_ => exact .inr after

/-! ## Every write -/

/-- A path with a file name: the file, its backup and the temporary file are three neighbours. -/
theorem guards_named {name : List UInt8} (named : p.fileName? = some name)
    (apart : p.location ≠ (backup p).location) :
    Guards blind p bytes (Between p old kept bytes)
      (fun fs => fs.WellFormed ∧ fs.Holds p old ∧ fs.Holds (backup p) kept)
      (fun _ fs => fs.WellFormed ∧ fs.Holds p old ∧ fs.Holds (backup p) kept) := by
  have outside : ∀ {temp : FilePath}, Spare p temp →
      temp.location ≠ p.location ∧ temp.location ≠ (backup p).location :=
    fun spare => ⟨spare.apart p (by simp), spare.apart (backup p) (by simp)⟩
  have edited : ∀ {temp : FilePath} {fs fs' : FileSystem}, Spare p temp →
      fs.WellFormed ∧ fs.Holds p old ∧ fs.Holds (backup p) kept → fs.Edited fs' [temp.location] →
      fs'.WellFormed ∧ fs'.Holds p old ∧ fs'.Holds (backup p) kept := by
    rintro temp fs fs' spare ⟨wf, hp, hb⟩ change
    obtain ⟨target, other⟩ := outside spare
    exact ⟨change.wf, change.holds wf (by simpa using target.symm) hp,
      change.holds wf (by simpa using other.symm) hb⟩
  -- neither the file nor its backup is on the way to their directory
  have below : ∀ {l : Location} {last : List UInt8}, l <+: (directory p).location →
      ¬ (directory p).location ++ [last] <+: l := by
    intro l last inside onto
    have long := (onto.trans inside).length_le
    rw [List.length_append, List.length_singleton] at long
    omega
  refine
    { wf := fun fs good => good.1
      begins := fun fs ⟨wf, hp, hb⟩ => ⟨wf, _, _, hp, hb, .before⟩
      grows := ?_
      creates := fun temp fs made spare here change _ => edited spare here change
      fills := fun temp fs ⟨wf, hp, hb⟩ => ⟨wf, _, _, hp, hb, .before⟩
      stays := fun temp fs fs' spare here change => edited spare here change
      replaces := ?_
      cleans := ?_
      marks := ?_ }
  · rintro fs fs' l ⟨wf, hp, hb⟩ grown inside
    obtain ⟨file, -, -, beside⟩ := FilePath.backup_named named
    have target : ¬ p.location <+: l := FilePath.location_named named ▸ below inside
    have other : ¬ (backup p).location <+: l := beside ▸ below inside
    exact ⟨grown.wf, grown.holds wf target hp, grown.holds wf other hb⟩
  · rintro temp fs spare ⟨wf, hp, hb⟩ ht
    obtain ⟨target, other⟩ := outside spare
    exact replace_keeps apart target other wf hp hb ht
  · intro temp fs fs' spare good change
    obtain ⟨target, other⟩ := outside spare
    exact good.edited change (by simpa using target.symm) (by simpa using other.symm)
  · rintro fs fs' ⟨wf, x, y, hp, hb, stage⟩ holds change still
    exact ⟨change.wf, _, _, still, change.holds wf (by simpa using apart.symm) hb, .replaced _⟩

section Unnamed

variable (unnamed : p.fileName? = none)

include unnamed

/-- A path without a file name leads above all that is in its directory. -/
theorem spare_below (spare : Spare p temp) :
    ∃ name back, temp.location = p.location ++ name :: back := by
  obtain ⟨name, plain, rfl⟩ := spare.beside
  obtain ⟨back, whole⟩ := FilePath.location_unnamed unnamed
  rw [FilePath.location_join plain, ← whole, List.append_assoc]
  cases back with
  | nil => exact ⟨name, [], rfl⟩
  | cons first rest => exact ⟨first, rest ++ [name], rfl⟩

/-- Nothing is moved onto a directory. -/
theorem replace_directory {good : FileSystem → Prop} (now : good fs) (wf : fs.WellFormed)
    (stands : fs.entryAt? p.location = some .directory) (target : temp.location ≠ p.location)
    (ht : fs.Holds temp (some bytes)) :
    (replace temp p).Keeps blind good (Written p bytes) fs := by
  have refused : ∀ e, Keeps blind good (Written p bytes) (pure (.error e)) fs :=
    fun e => .pure now (by simp [Written])
  have unmoved : ∀ after, fs.rename temp p = .ok after → False := by
    intro after done
    obtain ⟨-, -, -, other⟩ := rename_ok wf ht target done
    exact other stands
  unfold replace
  rw [FilePath.backup_unnamed unnamed]
  refine Keeps.attempt now (fun after done => (unmoved after done).elim) ?_
  intro first left leaves
  obtain rfl := leaves.rename_eq
  refine Keeps.exists? now ?_ fun _ => refused first
  cases left.exists? p with
  | false => exact refused first
  | true =>
    refine Keeps.ignore now ?_ ?_
    · intro after removed
      obtain ⟨-, -, other⟩ := remove_ok wf removed
      exact absurd stands other
    · intro after leaves
      obtain rfl := leaves.remove_eq
      refine Keeps.attempt now ?_ ?_
      · intro moved done
        obtain rfl : moved = after := rename_self wf stands done
        refine Keeps.attempt now (fun after done => (unmoved after done).elim) ?_
        intro e left leaves
        obtain rfl := leaves.rename_eq
        refine Keeps.ignore now ?_ ?_
        · intro last back
          obtain rfl : last = left := rename_self wf stands back
          exact refused e
        · intro last leaves
          obtain rfl := leaves.rename_eq
          exact refused e
      · intro e left leaves
        obtain rfl := leaves.rename_eq
        exact refused e

theorem guards_unnamed (start : FileSystem) :
    Guards blind p bytes
      (fun fs => fs.WellFormed ∧ (fs.read p).toOption = (start.read p).toOption)
      (fun fs => fs.WellFormed ∧ (fs.read p).toOption = (start.read p).toOption)
      (fun _ fs => fs.WellFormed ∧ fs.entryAt? p.location = some .directory ∧
        (start.read p).toOption = none) := by
  have outside : ∀ {temp : FilePath}, Spare p temp → temp.location ≠ p.location :=
    fun spare => spare.apart p (by simp)
  refine
    { wf := fun fs good => good.1
      begins := fun fs here => here
      grows := fun fs fs' l ⟨wf, same⟩ grown _ => ⟨grown.wf, (grown.read_eq wf).trans same⟩
      creates := ?_
      fills := fun temp fs ⟨wf, stands, nothing⟩ =>
        ⟨wf, (read_directory wf stands).trans nothing.symm⟩
      stays := ?_
      replaces := ?_
      cleans := ?_
      marks := fun fs fs' ⟨wf, same⟩ holds change still =>
        ⟨change.wf, by rw [still.read_eq, ← same, holds.read_eq]⟩ }
  · rintro temp fs made spare ⟨wf, same⟩ change holds
    obtain ⟨name, back, below⟩ := spare_below unnamed spare
    obtain ⟨-, -, mode, file⟩ := holds.file change.wf
    have stands : made.entryAt? p.location = some .directory := change.wf.above (below ▸ file)
    have other : p.location ∉ [temp.location] := by simpa using (outside spare).symm
    refine ⟨change.wf, stands, ?_⟩
    rw [← same, ← change.read_eq wf other, read_directory change.wf stands]
  · rintro temp fs fs' spare ⟨wf, stands, nothing⟩ change
    refine ⟨change.wf, ?_, nothing⟩
    rw [change.same _ (by simpa using (outside spare).symm), stands]
  · rintro temp fs spare ⟨wf, stands, nothing⟩ ht
    exact replace_directory unnamed ⟨wf, (read_directory wf stands).trans nothing.symm⟩ wf stands
      (outside spare) ht
  · rintro temp fs fs' spare ⟨wf, same⟩ change
    exact ⟨change.wf, (change.read_eq wf (by simpa using (outside spare).symm)).trans same⟩

theorem recovered_unnamed (fs : FileSystem) : recovered p fs = (fs.read p).toOption := by
  rw [recovered, recover_run, FilePath.backup_unnamed unnamed]
  simp

end Unnamed

theorem location_apart {name : List UInt8} (named : p.fileName? = some name)
    (other : p.extension? ≠ some (Utf8.encode "bak")) : p.location ≠ (backup p).location := by
  obtain ⟨beside, -, different, whole⟩ := FilePath.backup_named named
  rw [FilePath.location_named named, whole]
  intro equal
  exact different other (by simpa using equal.symm)

/-- Wherever a write stops and whichever of its calls fail, recovery then brings back the whole content
that it would have brought back before, or the whole new content; a write that succeeds has put the new
content there. Recovery itself runs undisturbed. -/
theorem recovered_after_interruption {r : Option (Except IoError Unit)}
    (other : p.extension? ≠ some (Utf8.encode "bak")) (wf : fs.WellFormed)
    (file : fs.isDirectory p = false) (aside : fs.isDirectory (backup p) = false)
    (run : (write p bytes o).Reaches blind fs r fs') :
    (recovered p fs' = recovered p fs ∨ recovered p fs' = some bytes) ∧
      (r = some (.ok ()) → recovered p fs' = some bytes ∧ (fs'.read p).toOption = some bytes) := by
  cases named : p.fileName? with
  | some name =>
    have apart := location_apart named other
    obtain ⟨old, hp⟩ := holds_of_isDirectory file
    obtain ⟨kept, hb⟩ := holds_of_isDirectory aside
    have keeps : (write p bytes o).Keeps blind (Between p old kept bytes) (Written p bytes) fs :=
      write_keeps (guards_named named apart) ⟨wf, hp, hb⟩
    obtain ⟨between, written⟩ := keeps.reaches run
    refine ⟨between.recovered named apart wf hp hb, fun ends => ?_⟩
    have holds := written _ ends rfl
    exact ⟨recovered_present holds, holds.read_eq⟩
  | none =>
    have keeps : (write p bytes o).Keeps blind
        (fun fs' => fs'.WellFormed ∧ (fs'.read p).toOption = (fs.read p).toOption)
        (Written p bytes) fs := write_keeps (guards_unnamed named fs) ⟨wf, rfl⟩
    obtain ⟨⟨-, same⟩, written⟩ := keeps.reaches run
    rw [recovered_unnamed named, recovered_unnamed named]
    refine ⟨.inl same, fun ends => ?_⟩
    have holds := (written _ ends rfl).read_eq
    exact ⟨holds, holds⟩

section Aside

/-- The file of the runs below. -/
def asideFile : FilePath := ⟨[47, 97]⟩

theorem backup_asideFile : backup asideFile = ⟨[47, 97, 46, 98, 97, 107]⟩ := by
  simp only [backup, FilePath.withExtension, FilePath.encode_bak]
  decide

/-- The temporary file cannot be moved onto its target, and the process stops once the target is aside. -/
theorem stops_aside (old new : List UInt8) :
    (write asideFile new .default).Reaches False ⟨[([[97]], .file old 0o644)]⟩ none
      ⟨[([[97, 46, 98, 97, 107]], .file old 0o644), ([[116]], .file new 0o600)]⟩ := by
  let start : FileSystem := ⟨[([[97]], .file old 0o644)]⟩
  let temp : FilePath := ⟨[47, 116]⟩
  let full : FileSystem := ⟨[([[116]], .file new 0o600), ([[97]], .file old 0o644)]⟩
  have grown : (Call.createDirectories (directory asideFile)).perform start = .ok start := rfl
  have made : start.createFile temp =
      .ok ⟨[([[116]], .file [] 0o600), ([[97]], .file old 0o644)]⟩ := rfl
  have spare : Temporary (directory asideFile) [asideFile, backup asideFile] temp := by
    refine ⟨⟨[116], ⟨by decide, by decide⟩, by decide⟩, ?_⟩
    rw [backup_asideFile]
    decide
  have filled : (Call.append temp new).perform
      ⟨[([[116]], .file [] 0o600), ([[97]], .file old 0o644)]⟩ = .ok full := rfl
  have synced : (Call.sync temp).perform full = .ok full := rfl
  refine .succeeds grown (.creates spare made (.succeeds filled (.succeeds synced ?_)))
  refine .fails .permissionDenied (.nothing _) (.sees ?_)
  have present : full.exists? asideFile = true := rfl
  rw [present]
  refine .fails .notFound (.nothing _) (.succeeds ?_ (.stops _ _))
  rw [backup_asideFile]
  rfl

theorem recovered_after_interruption_aside :
    let fs : FileSystem := ⟨[([[97]], .file [1] 0o644)]⟩
    let fs' : FileSystem := ⟨[([[97, 46, 98, 97, 107]], .file [1] 0o644), ([[116]], .file [2] 0o600)]⟩
    (write asideFile [2] .default).Reaches False fs none fs' ∧ fs'.exists? asideFile = false ∧
      (recovered asideFile fs' = recovered asideFile fs ∨ recovered asideFile fs' = some [2]) := by
  intro fs fs'
  have other : asideFile.extension? ≠ some (Utf8.encode "bak") := by
    rw [FilePath.encode_bak]
    decide
  have wf : fs.WellFormed := wellFormed_of_entries (by decide)
  have aside : fs.isDirectory (backup asideFile) = false := by
    rw [backup_asideFile]
    decide
  have run := stops_aside [1] [2]
  exact ⟨run, by decide, (recovered_after_interruption other wf (by decide) aside run).1⟩

end Aside

/-- The file is whole, or its old content is aside as a whole. -/
def Whole (p : FilePath) (old new : List UInt8) (fs : FileSystem) : Prop :=
  fs.Holds p (some old) ∨ fs.Holds p (some new) ∨
    fs.Holds p none ∧ recovered p fs = some old

/-- A write over a file leaves a whole content at every point. -/
theorem write_whole {content : List UInt8} (other : p.extension? ≠ some (Utf8.encode "bak"))
    (wf : fs.WellFormed) (file : fs.Holds p (some content))
    (aside : fs.isDirectory (backup p) = false) :
    (write p bytes o).Keeps blind (Whole p content bytes) (fun _ _ => True) fs := by
  cases named : p.fileName? with
  | some name =>
    have apart := location_apart named other
    obtain ⟨kept, hb⟩ := holds_of_isDirectory aside
    have keeps : (write p bytes o).Keeps blind (Between p (some content) kept bytes)
        (Written p bytes) fs := write_keeps (guards_named named apart) ⟨wf, file, hb⟩
    refine keeps.mono ?_ fun _ _ _ _ => trivial
    rintro fs' ⟨wf', x, y, hp, hb', stage⟩
    cases stage with
    | before => exact .inl hp
    | cleared old present => exact .inl (by simpa using present ▸ hp)
    | aside old present =>
      obtain rfl : content = old := by simpa using present
      obtain ⟨valid, plain, -⟩ := file.file wf
      exact .inr (.inr ⟨hp, recovered_aside named apart wf' hp hb' ⟨valid, plain⟩⟩)
    | replaced left => exact .inr (.inl hp)
  | none =>
    have keeps : (write p bytes o).Keeps blind
        (fun fs' => fs'.WellFormed ∧ (fs'.read p).toOption = (fs.read p).toOption)
        (Written p bytes) fs := write_keeps (guards_unnamed named fs) ⟨wf, rfl⟩
    refine keeps.mono ?_ fun _ _ _ _ => trivial
    rintro fs' ⟨wf', same⟩
    exact .inl (read_eq_some.mp (same.trans file.read_eq))

end LinterClient.AtomicWrite
