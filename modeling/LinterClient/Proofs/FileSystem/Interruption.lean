import LinterClient.FileSystem.Script
import LinterClient.Proofs.FileSystem.Contents

/-!
Scripts that are interrupted, and whose calls fail.

Any call may fail, also one that the file system would carry out, and the process may stop before any
call. What holds then at every point is shown by one law for each kind of call.
-/

namespace LinterClient.FileSystem

/-- What a call that fails may leave behind: part of what was to be written, or some of the directories
that were to be made. -/
inductive Call.Leaves (fs : FileSystem) : Call → FileSystem → Prop
  | nothing (c : Call) : Leaves fs c fs
  | part {p : FilePath} {bytes : List UInt8} {fs' : FileSystem} (size : Nat)
      (written : fs.append p (bytes.take size) = .ok fs') : Leaves fs (.append p bytes) fs'
  | above {p : FilePath} {fs' : FileSystem} (depth : Nat)
      (made : createDirectories.go fs [] (p.location.take depth) = .ok fs') :
      Leaves fs (.createDirectories p) fs'

/-- Of a call that moves or removes nothing is left when it fails. -/
theorem Call.Leaves.rename_eq {fs left : FileSystem} {source target : FilePath}
    (leaves : (Call.rename source target).Leaves fs left) : left = fs := by
  cases leaves
  rfl

theorem Call.Leaves.remove_eq {fs left : FileSystem} {p : FilePath}
    (leaves : (Call.remove p).Leaves fs left) : left = fs := by
  cases leaves
  rfl

/-- A name in a directory that leads to none of some paths. -/
structure Temporary (directory : FilePath) (others : List FilePath) (p : FilePath) : Prop where
  beside : ∃ name, FilePath.PlainName name ∧ p = directory.join ⟨name⟩
  apart : ∀ other ∈ others, p.location ≠ other.location

namespace Script

/-- The states that a script comes to, and the result if it has come to its end. If the script is
`blind`, asking whether something stands at a path may fail as well, and is then answered with no. A file
that cannot be read is not taken for missing. -/
inductive Reaches (blind : Prop) : Script α → FileSystem → Option α → FileSystem → Prop
  | stops (s : Script α) (fs : FileSystem) : Reaches blind s fs none fs
  | ends (value : α) (fs : FileSystem) : Reaches blind (.done value) fs (some value) fs
  | sees {p : FilePath} {next : Bool → Script α} {fs fs' : FileSystem} {r : Option α}
      (rest : Reaches blind (next (fs.exists? p)) fs r fs') : Reaches blind (.check p next) fs r fs'
  | misses {p : FilePath} {next : Bool → Script α} {fs fs' : FileSystem} {r : Option α}
      (fails : blind) (rest : Reaches blind (next false) fs r fs') :
      Reaches blind (.check p next) fs r fs'
  | reads {p : FilePath} {next : Except IoError String → Script α} {fs fs' : FileSystem}
      {r : Option α} (rest : Reaches blind (next (fs.readText p)) fs r fs') :
      Reaches blind (.read p next) fs r fs'
  | cannotRead {p : FilePath} {next : Except IoError String → Script α} {fs fs' : FileSystem}
      {r : Option α} (e : IoError) (present : e ≠ .notFound)
      (rest : Reaches blind (next (.error e)) fs r fs') : Reaches blind (.read p next) fs r fs'
  | creates {directory : FilePath} {others : List FilePath} {next : Except IoError FilePath → Script α}
      {fs made fs' : FileSystem} {r : Option α} {p : FilePath}
      (temporary : Temporary directory others p) (done : fs.createFile p = .ok made)
      (rest : Reaches blind (next (.ok p)) made r fs') :
      Reaches blind (.temporary directory others next) fs r fs'
  | cannotCreate {directory : FilePath} {others : List FilePath}
      {next : Except IoError FilePath → Script α} {fs fs' : FileSystem} {r : Option α} (e : IoError)
      (rest : Reaches blind (next (.error e)) fs r fs') :
      Reaches blind (.temporary directory others next) fs r fs'
  | succeeds {c : Call} {next : Except IoError Unit → Script α} {fs after fs' : FileSystem}
      {r : Option α} (done : c.perform fs = .ok after)
      (rest : Reaches blind (next (.ok ())) after r fs') : Reaches blind (.call c next) fs r fs'
  | fails {c : Call} {next : Except IoError Unit → Script α} {fs left fs' : FileSystem}
      {r : Option α} (e : IoError) (leaves : c.Leaves fs left)
      (rest : Reaches blind (next (.error e)) left r fs') : Reaches blind (.call c next) fs r fs'

theorem plain_temporary (n : Nat) :
    FilePath.PlainName (Utf8.encode (".tmp" ++ toString n)) := by
  have text : ".tmp" ++ toString n = String.ofList (['.', 't', 'm', 'p'] ++ Nat.toDigits 10 n) := by
    rw [String.ofList_append, ← Nat.repr_eq_ofList_toDigits]
    rfl
  have clean : ∀ c ∈ ['.', 't', 'm', 'p'] ++ Nat.toDigits 10 n, c.toNat < 128 ∧ c.toNat ≠ 47 := by
    intro c inside
    rcases List.mem_append.mp inside with inside | inside
    · exact (by simp : ∀ c ∈ ['.', 't', 'm', 'p'], c.toNat < 128 ∧ c.toNat ≠ 47) c inside
    · have digit := Nat.isDigit_of_mem_toDigits (by decide) (by decide) inside
      rw [Char.isDigit, Bool.and_eq_true, decide_eq_true_eq, decide_eq_true_eq] at digit
      have low : 48 ≤ c.toNat := digit.1
      have high : c.toNat ≤ 57 := digit.2
      omega
  rw [text, Utf8.encode_ofList _ fun c inside => (clean c inside).1]
  refine ⟨?_, ?_⟩
  · intro inside
    obtain ⟨c, member, equal⟩ := List.mem_map.mp inside
    obtain ⟨small, other⟩ := clean c member
    apply other
    have code := congrArg UInt8.toNat equal
    simpa [FilePath.slash, Nat.mod_eq_of_lt (show c.toNat < 256 by omega)] using code
  · simp [FilePath.step?]

theorem createTemporary_ok {fs after : FileSystem} {directory p : FilePath} {others : List FilePath}
    (done : fs.createTemporary directory others = .ok (p, after)) :
    Temporary directory others p ∧ fs.createFile p = .ok after := by
  simp only [FileSystem.createTemporary] at done
  split at done
  · rename_i name found
    cases made : fs.createFile name with
    | error e => simp [made, Bind.bind, Except.bind] at done
    | ok tree =>
      simp only [made, Bind.bind, Except.bind, Except.ok.injEq, Prod.mk.injEq] at done
      obtain ⟨rfl, rfl⟩ := done
      have free := List.find?_some found
      obtain ⟨n, -, rfl⟩ := List.mem_map.mp (List.mem_of_find?_eq_some found)
      refine ⟨⟨⟨_, plain_temporary n, rfl⟩, ?_⟩, made⟩
      simp only [Bool.and_eq_true, Bool.not_eq_true', List.any_eq_false, decide_eq_true_eq] at free
      exact fun other inside equal => free.2 other inside equal.symm
  · simp at done

/-- A run in which nothing interferes is one of those that a script can have. -/
theorem run_reaches (blind : Prop) (s : Script α) (fs : FileSystem) :
    Reaches blind s fs (some (s.run fs).1) (s.run fs).2 := by
  induction s generalizing fs with
  | done value => exact .ends value fs
  | check p next ih => exact .sees (ih _ fs)
  | read p next ih => exact .reads (ih _ fs)
  | temporary directory others next ih =>
    simp only [run]
    cases made : fs.createTemporary directory others with
    | error e => exact .cannotCreate e (ih _ fs)
    | ok pair =>
      obtain ⟨temporary, created⟩ := createTemporary_ok made
      exact .creates temporary created (ih _ pair.2)
  | call c next ih =>
    simp only [run]
    cases done : c.perform fs with
    | error e => exact .fails e (.nothing c) (ih _ fs)
    | ok after => exact .succeeds done (ih _ after)

variable {blind : Prop} {fs fs' : FileSystem}

/-- Where the first part of a script stops, so does the whole. -/
theorem Reaches.bind_stops {s : Script α} (f : α → Script β)
    (run : Reaches blind s fs none fs') : Reaches blind (s >>= f) fs none fs' := by
  generalize stopped : (none : Option α) = r at run
  induction run with
  | stops => exact .stops _ _
  | ends => simp at stopped
  | sees _ ih => exact .sees (ih stopped)
  | misses fails _ ih => exact .misses fails (ih stopped)
  | reads _ ih => exact .reads (ih stopped)
  | cannotRead e present _ ih => exact .cannotRead e present (ih stopped)
  | creates temporary done _ ih => exact .creates temporary done (ih stopped)
  | cannotCreate e _ ih => exact .cannotCreate e (ih stopped)
  | succeeds done _ ih => exact .succeeds done (ih stopped)
  | fails e leaves _ ih => exact .fails e leaves (ih stopped)

/-- At every point of a script the tree is as it should be, and at the end so is the result. -/
def Keeps (blind : Prop) (good : FileSystem → Prop) (post : α → FileSystem → Prop) :
    Script α → FileSystem → Prop
  | .done value, fs => good fs ∧ post value fs
  | .check p next, fs =>
    good fs ∧ Keeps blind good post (next (fs.exists? p)) fs ∧
      (blind → Keeps blind good post (next false) fs)
  | .read p next, fs =>
    good fs ∧ Keeps blind good post (next (fs.readText p)) fs ∧
      ∀ e, e ≠ .notFound → Keeps blind good post (next (.error e)) fs
  | .temporary directory others next, fs =>
    good fs ∧ (∀ p made, Temporary directory others p → fs.createFile p = .ok made →
      Keeps blind good post (next (.ok p)) made) ∧ ∀ e, Keeps blind good post (next (.error e)) fs
  | .call c next, fs =>
    good fs ∧ (∀ after, c.perform fs = .ok after → Keeps blind good post (next (.ok ())) after) ∧
      ∀ e left, c.Leaves fs left → Keeps blind good post (next (.error e)) left

variable {good : FileSystem → Prop} {post : α → FileSystem → Prop} {s : Script α}

theorem Keeps.now (keeps : Keeps blind good post s fs) : good fs := by
  cases s <;> exact keeps.1

/-- What is shown call by call holds at every point. -/
theorem Keeps.reaches {r : Option α} (keeps : Keeps blind good post s fs)
    (run : Reaches blind s fs r fs') : good fs' ∧ ∀ value, r = some value → post value fs' := by
  induction run with
  | stops => exact ⟨keeps.now, by simp⟩
  | ends => exact ⟨keeps.1, by rintro value ⟨rfl⟩; exact keeps.2⟩
  | sees _ ih => exact ih keeps.2.1
  | misses fails _ ih => exact ih (keeps.2.2 fails)
  | reads _ ih => exact ih keeps.2.1
  | cannotRead e present _ ih => exact ih (keeps.2.2 e present)
  | creates temporary done _ ih => exact ih (keeps.2.1 _ _ temporary done)
  | cannotCreate e _ ih => exact ih (keeps.2.2 e)
  | succeeds done _ ih => exact ih (keeps.2.1 _ done)
  | fails e leaves _ ih => exact ih (keeps.2.2 e _ leaves)

theorem Keeps.bind {f : α → Script β} {after : β → FileSystem → Prop}
    (keeps : Keeps blind good (fun value fs => Keeps blind good after (f value) fs) s fs) :
    Keeps blind good after (s >>= f) fs := by
  induction s generalizing fs with
  | done value => exact keeps.2
  | check p next ih => exact ⟨keeps.1, ih _ keeps.2.1, fun missed => ih _ (keeps.2.2 missed)⟩
  | read p next ih =>
    exact ⟨keeps.1, ih _ keeps.2.1, fun e present => ih _ (keeps.2.2 e present)⟩
  | temporary directory others next ih =>
    exact ⟨keeps.1, fun p made temporary done => ih _ (keeps.2.1 p made temporary done),
      fun e => ih _ (keeps.2.2 e)⟩
  | call c next ih =>
    exact ⟨keeps.1, fun after done => ih _ (keeps.2.1 after done),
      fun e left leaves => ih _ (keeps.2.2 e left leaves)⟩

theorem Keeps.mono {fine : FileSystem → Prop} {weaker : α → FileSystem → Prop}
    (keeps : Keeps blind good post s fs) (points : ∀ fs, good fs → fine fs)
    (result : ∀ value fs, good fs → post value fs → weaker value fs) :
    Keeps blind fine weaker s fs := by
  induction s generalizing fs with
  | done value => exact ⟨points fs keeps.1, result value fs keeps.1 keeps.2⟩
  | check p next ih =>
    exact ⟨points fs keeps.1, ih _ keeps.2.1, fun missed => ih _ (keeps.2.2 missed)⟩
  | read p next ih =>
    exact ⟨points fs keeps.1, ih _ keeps.2.1, fun e present => ih _ (keeps.2.2 e present)⟩
  | temporary directory others next ih =>
    exact ⟨points fs keeps.1,
      fun p made temporary done => ih _ (keeps.2.1 p made temporary done),
      fun e => ih _ (keeps.2.2 e)⟩
  | call c next ih =>
    exact ⟨points fs keeps.1, fun after done => ih _ (keeps.2.1 after done),
      fun e left leaves => ih _ (keeps.2.2 e left leaves)⟩

theorem Keeps.weaken {weaker : α → FileSystem → Prop} (keeps : Keeps blind good post s fs)
    (result : ∀ value fs, good fs → post value fs → weaker value fs) :
    Keeps blind good weaker s fs :=
  keeps.mono (fun _ now => now) result

theorem Keeps.pure {value : α} (now : good fs) (h : post value fs) :
    Keeps blind good post (Pure.pure value) fs := ⟨now, h⟩

theorem Keeps.attempt {c : Call} {f : Except IoError Unit → Script α} (now : good fs)
    (succeeds : ∀ after, c.perform fs = .ok after → Keeps blind good post (f (.ok ())) after)
    (fails : ∀ e left, c.Leaves fs left → Keeps blind good post (f (.error e)) left) :
    Keeps blind good post (Script.attempt c >>= f) fs := ⟨now, succeeds, fails⟩

theorem Keeps.ignore {c : Call} {f : Unit → Script α} (now : good fs)
    (succeeds : ∀ after, c.perform fs = .ok after → Keeps blind good post (f ()) after)
    (fails : ∀ left, c.Leaves fs left → Keeps blind good post (f ()) left) :
    Keeps blind good post (Script.ignore c >>= f) fs :=
  ⟨now, succeeds, fun _ left leaves => fails left leaves⟩

theorem Keeps.exists? {p : FilePath} {f : Bool → Script α} (now : good fs)
    (sees : Keeps blind good post (f (fs.exists? p)) fs)
    (misses : blind → Keeps blind good post (f false) fs) :
    Keeps blind good post (Script.exists? p >>= f) fs := ⟨now, sees, misses⟩

theorem Keeps.readText {p : FilePath} {f : Except IoError String → Script α} (now : good fs)
    (reads : Keeps blind good post (f (fs.readText p)) fs)
    (fails : ∀ e, e ≠ .notFound → Keeps blind good post (f (.error e)) fs) :
    Keeps blind good post (Script.readText p >>= f) fs := ⟨now, reads, fails⟩

/-- A step that may throw, and what follows if it does not. -/
theorem Keeps.bindExcept {x : ExceptT IoError Script α} {f : α → ExceptT IoError Script β}
    {after : Except IoError β → FileSystem → Prop}
    (keeps : Keeps blind good (fun r fs => match r with
      | .ok value => Keeps blind good after (f value).run fs
      | .error e => after (.error e) fs) x.run fs) :
    Keeps blind good after (x >>= f).run fs := by
  rw [ExceptT.run_bind]
  refine (keeps.weaken ?_).bind
  intro r fs now h
  cases r with
  | ok value => exact h
  | error e => exact ⟨now, h⟩

theorem Keeps.require {c : Call} {f : Unit → ExceptT IoError Script β}
    {after : Except IoError β → FileSystem → Prop} (now : good fs)
    (succeeds : ∀ done, c.perform fs = .ok done → Keeps blind good after (f ()).run done)
    (fails : ∀ e left, c.Leaves fs left → good left ∧ after (.error e) left) :
    Keeps blind good after (Script.require c >>= f).run fs :=
  .bindExcept ⟨now, fun done performed => ⟨(succeeds done performed).now, succeeds done performed⟩,
    fails⟩

theorem Keeps.temporary {directory : FilePath} {others : List FilePath}
    {f : FilePath → ExceptT IoError Script β} {after : Except IoError β → FileSystem → Prop}
    (now : good fs)
    (creates : ∀ p made, Temporary directory others p → fs.createFile p = .ok made →
      Keeps blind good after (f p).run made)
    (fails : ∀ e, after (.error e) fs) :
    Keeps blind good after (Script.createTemporary directory others >>= f).run fs :=
  .bindExcept ⟨now, fun p made temporary done =>
    ⟨(creates p made temporary done).now, creates p made temporary done⟩, fun e => ⟨now, fails e⟩⟩

end Script

end LinterClient.FileSystem
