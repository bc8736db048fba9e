import LinterClient.Proofs.Memento
import LinterClient.Proofs.MissingLibrary
import LinterClient.Proofs.Task.Goes
import LinterClient.Session.Serving

/-!
How often the user is told that the library is missing.

A client that runs tells each area once: what it noted stays in its memento, even if that cannot be saved.
The next client finds what was last saved. As each save is of everything that is known, an area is safe once
a save succeeds while it is known.
-/

namespace LinterClient.Session

open AtomicWrite (Tended recovered)
open MissingLibrary (Area areaIn)

variable {σ : Type} [Host σ]

/-! ## One request -/

def area (s : Session σ) (q : Protocol.NoLibraryParams) : Area :=
  areaIn ((Store.workspace s.store).folderFor? q.source.uri)

/-- Whether the memento of a client knows an area. -/
def Known (s : Session σ) (c : Area) : Prop :=
  (MissingLibrary.ofMemento s.memento).Knows c

instance (s : Session σ) : DecidablePred s.Known :=
  fun _ => inferInstanceAs (Decidable (MissingLibrary.Knows _ _))

/-- What is noted for a request. -/
def noteFor (s : Session σ) (q : Protocol.NoLibraryParams) : Bool × MissingLibrary :=
  (MissingLibrary.ofMemento s.memento).tell ((Store.workspace s.store).folderFor? q.source.uri)

/-- What the user is told. -/
def notice (q : Protocol.NoLibraryParams) : Window.Message :=
  ⟨.info, "Failed to load the ESLint library for the document " ++ displayName q.source.uri ++ "." ++
    " See the output for more information.", ["Go to output"], false⟩

/-- A request is handled, and the job that it starts shows its message. -/
def attend (q : Protocol.NoLibraryParams) (s : Session σ) : Session σ :=
  let stop := (missingLibrary q).advance s
  stop.2.2.foldl (fun s job => ((runJob handle job).advance s).2.1) stop.2.1

/-- What a request leaves: if its area is new, that is noted, saved and told. -/
inductive Attended (q : Protocol.NoLibraryParams) (s s' : Session σ) : Prop
  | news (new : ¬ s.Known (s.area q))
      (memento : s'.memento = s.memento.set MissingLibrary.key (s.noteFor q).2.toJson)
      (store : s'.store = (Host.saveMemento s.store s'.memento).2)
      (shown : s'.window.shown = s.window.shown ++ [.message (notice q)])
  | known (old : s.Known (s.area q)) (memento : s'.memento = s.memento) (store : s'.store = s.store)
      (shown : s'.window.shown = s.window.shown)

theorem attended (q : Protocol.NoLibraryParams) (s : Session σ) : Attended q s (attend q s) := by
  have isNew := MissingLibrary.tell_new (MissingLibrary.ofMemento s.memento)
    ((Store.workspace s.store).folderFor? q.source.uri)
  cases tells : s.noteFor q with
  | mk new noted =>
    have tells' := tells
    unfold noteFor at tells'
    rw [tells'] at isNew
    cases new with
    | true =>
      have goes : ∃ text, (missingLibrary q).advance s =
          (.done (), (remember MissingLibrary.key noted.toJson (addLog .info text s)).2,
            [.announce (notice q) "Go to output"]) := by
        simp only [missingLibrary, Program.advance_bind, Program.get, Program.advance,
          Program.Pause.andThen, writeLog, Program.modify, tells', if_true]
        exact ⟨_, rfl⟩
      obtain ⟨text, goes⟩ := goes
      have ends : attend q s =
          (openMessage (notice q) (remember MissingLibrary.key noted.toJson (addLog .info text s)).2).2 := by
        rw [attend, goes]
        rfl
      rw [ends]
      exact .news (isNew.mp rfl) (by rw [tells]; rfl) rfl rfl
    | false =>
      have goes : ∃ text, (missingLibrary q).advance s = (.done (), addLog .info text s, []) := by
        simp only [missingLibrary, Program.advance_bind, Program.get, Program.advance,
          Program.Pause.andThen, writeLog, Program.modify, tells']
        exact ⟨_, rfl⟩
      obtain ⟨text, goes⟩ := goes
      have ends : attend q s = addLog .info text s := by
        rw [attend, goes]
        rfl
      rw [ends]
      exact .known (Classical.not_not.mp fun new => by cases isNew.mpr new) rfl rfl rfl

/-- After a request its area is known, and nothing else is forgotten or made up. -/
theorem known_attend (q : Protocol.NoLibraryParams) (s : Session σ) (c : Area) :
    (attend q s).Known c ↔ c = s.area q ∨ s.Known c := by
  cases attended q s with
  | news new memento store shown =>
    rw [Known, memento, MissingLibrary.knows_ofMemento_set]
    exact MissingLibrary.knows_tell _ _ _
  | known old memento store shown =>
    rw [Known, memento]
    exact ⟨.inr, fun either => either.elim (· ▸ old) id⟩

theorem attend_shown (q : Protocol.NoLibraryParams) (s : Session σ) :
    (attend q s).window.shown =
      s.window.shown ++ if s.Known (s.area q) then [] else [.message (notice q)] := by
  cases attended q s with
  | news new memento store shown => rw [shown, if_neg new]
  | known old memento store shown => rw [shown, if_pos old, List.append_nil]

/-! ## Histories -/

/-- What happens to a client. -/
inductive Happening where
  | request (q : Protocol.NoLibraryParams)
  /-- The client is started anew, and reads the memento. -/
  | restart
  /-- Anything else. -/
  | other
deriving DecidableEq

/-- What happened, with the client before and after it. -/
structure Moment (σ : Type) where
  event : Happening
  found : Session σ
  left : Session σ

variable [FileHost σ] {p : FilePath}

def files (s : Session σ) : FileSystem :=
  FileHost.files s.store

inductive Moment.Fits (p : FilePath) : Moment σ → Prop
  | request {s s' : Session σ} {q : Protocol.NoLibraryParams} (answered : attend q s = s') :
      Fits p ⟨.request q, s, s'⟩
  | restart {s s' : Session σ} (loaded : Memento.load s.files p = (.ok s'.memento, s'.files)) :
      Fits p ⟨.restart, s, s'⟩
  | other {s s' : Session σ} (memento : s'.memento = s.memento) : Fits p ⟨.other, s, s'⟩

/-- A client goes through some moments, from the first state to the last. -/
inductive History (p : FilePath) : Session σ → List (Moment σ) → Session σ → Prop
  | nil (s : Session σ) : History p s [] s
  | cons {first last : Session σ} {v : Moment σ} {later : List (Moment σ)} (found : v.found = first)
      (fits : v.Fits p) (rest : History p v.left later last) : History p first (v :: later) last

def Moment.Asks (v : Moment σ) (c : Area) : Prop :=
  ∃ q, v.event = .request q ∧ v.found.area q = c

/-- A request whose note was saved. -/
def Moment.Saved (v : Moment σ) : Prop :=
  (∃ q, v.event = .request q ∧ ¬ v.found.Known (v.found.area q)) ∧
    (Host.saveMemento v.found.store v.left.memento).1 = .ok ()

theorem History.of_nil {first last : Session σ} (history : History p first [] last) : last = first := by
  cases history
  rfl

theorem History.of_cons {first last : Session σ} {v : Moment σ} {later : List (Moment σ)}
    (history : History p first (v :: later) last) :
    v.found = first ∧ v.Fits p ∧ History p v.left later last := by
  cases history with
  | cons found fits rest => exact ⟨found, fits, rest⟩

theorem History.split {first last : Session σ} {before later : List (Moment σ)}
    (history : History p first (before ++ later) last) :
    ∃ middle, History p first before middle ∧ History p middle later last := by
  induction before generalizing first with
  | nil => exact ⟨first, .nil _, history⟩
  | cons v before ih =>
    obtain ⟨found, fits, rest⟩ := history.of_cons
    obtain ⟨middle, begun, ended⟩ := ih rest
    exact ⟨middle, .cons found fits begun, ended⟩

/-- What a running client knows is what it knew at first, and what it was asked for since. -/
theorem History.known_iff {first last : Session σ} {moments : List (Moment σ)}
    (history : History p first moments last) (running : ∀ v ∈ moments, v.event ≠ .restart) (c : Area) :
    last.Known c ↔ first.Known c ∨ ∃ v ∈ moments, v.Asks c := by
  induction history with
  | nil => simp
  | cons found fits rest ih =>
    subst found
    -- only a request adds to what the client knows, and a restart is ruled out
    rw [ih fun w member => running w (List.mem_cons_of_mem _ member), List.exists_mem_cons_iff]
    cases fits with
    | @request s _ q answered =>
      subst answered
      have asks : (⟨.request q, s, attend q s⟩ : Moment σ).Asks c ↔ c = s.area q :=
        ⟨fun ⟨_, same, about⟩ => by cases same; exact about.symm, fun about => ⟨q, rfl, about.symm⟩⟩
      rw [known_attend, asks]
      exact or_assoc.trans or_left_comm
    | restart => exact absurd rfl (running _ List.mem_cons_self)
    | @other s s' memento =>
      have asks : ¬ (⟨.other, s, s'⟩ : Moment σ).Asks c := nofun
      rw [Known, memento, or_iff_right asks]
      rfl

/-! ## The file -/

/-- An area that the next client will know. -/
def Lasts (p : FilePath) (s : Session σ) (c : Area) : Prop :=
  (MissingLibrary.ofMemento ⟨some p, Memento.stored p s.files⟩).Knows c

/-- A client whose memento is kept in a file, and no directory is in the way. -/
structure Steady (p : FilePath) (s : Session σ) : Prop where
  path : s.memento.path = some p
  tended : Tended p s.files

/-- What a request notes can be read back, and only requests and restarts touch the file. -/
structure Moment.Fair (p : FilePath) (v : Moment σ) : Prop where
  decodes {q : Protocol.NoLibraryParams} :
    v.event = .request q → ¬ v.found.Known (v.found.area q) → v.left.memento.Readable
  spares : v.event = .other → Tended p v.left.files ∧ recovered p v.left.files = recovered p v.found.files

theorem Lasts.of_content {s s' : Session σ} {c : Area}
    (same : recovered p s'.files = recovered p s.files) (lasts : s.Lasts p c) : s'.Lasts p c := by
  rw [Lasts, Memento.stored, same]
  exact lasts

/-- What is saved is what is known. -/
theorem Known.lasts {s : Session σ} {c : Area} (known : s.Known c) (readable : s.memento.Readable)
    (now : recovered p s.files = some s.memento.content) : s.Lasts p c := by
  rw [Lasts, Memento.stored_content readable now]
  exact known

section Files

variable {name : List UInt8} (named : p.fileName? = some name)
  (other : p.extension? ≠ some (Utf8.encode "bak")) {v : Moment σ}

include named other

/-- After a request the next client finds what it would have found before, or what was just noted. -/
theorem Steady.request {s : Session σ} (steady : s.Steady p) (q : Protocol.NoLibraryParams) :
    (attend q s).Steady p ∧
      (recovered p (attend q s).files = recovered p s.files ∨
        ¬ s.Known (s.area q) ∧ recovered p (attend q s).files = some (attend q s).memento.content) ∧
      (¬ s.Known (s.area q) → (Host.saveMemento s.store (attend q s).memento).1 = .ok () →
        recovered p (attend q s).files = some (attend q s).memento.content) := by
  cases attended q s with
  | news new memento store shown =>
    have path : (attend q s).memento.path = some p := by
      rw [memento, Memento.path_set]
      exact steady.path
    obtain ⟨r, reaches, done⟩ := FileHost.saves s.store (attend q s).memento p path
    obtain ⟨tended, content, ended⟩ := steady.tended.write named other reaches
    rw [← store] at tended content ended
    exact ⟨⟨path, tended⟩, content.imp_right fun written => ⟨new, written⟩,
      fun _ saved => ended (congrArg some (done saved))⟩
  | known old memento store shown =>
    have files : (attend q s).files = s.files := congrArg FileHost.files store
    exact ⟨⟨memento ▸ steady.path, files ▸ steady.tended⟩, .inl (congrArg (recovered p) files),
      fun new => absurd old new⟩

theorem Moment.Fits.steady (fits : v.Fits p) (fair : v.Fair p) (steady : v.found.Steady p) :
    v.left.Steady p := by
  cases fits with
  | @request s _ q answered =>
    subst answered
    exact (steady.request named other q).1
  | restart loaded =>
    obtain ⟨memento, files⟩ := Memento.load_ok loaded
    exact ⟨by rw [memento], by rw [files]; exact (steady.tended.recover named other).1⟩
  | other memento => exact ⟨memento ▸ steady.path, (fair.spares rfl).1⟩

/-- An area that is known, and will be, stays so. -/
theorem Moment.Fits.lasts (fits : v.Fits p) (fair : v.Fair p) (steady : v.found.Steady p) {c : Area}
    (known : v.found.Known c) (lasts : v.found.Lasts p c) : v.left.Known c ∧ v.left.Lasts p c := by
  cases fits with
  | @request s _ q answered =>
    subst answered
    have still : (attend q s).Known c := (known_attend q s c).mpr (.inr known)
    refine ⟨still, ?_⟩
    obtain same | ⟨new, written⟩ := (steady.request named other q).2.1
    · exact Lasts.of_content same lasts
    · exact still.lasts (fair.decodes rfl new) written
  | @restart s s' loaded =>
    obtain ⟨memento, files⟩ := Memento.load_ok loaded
    refine ⟨?_, Lasts.of_content ?_ lasts⟩
    · rw [Known, memento]
      exact lasts
    · rw [files]
      exact (steady.tended.recover named other).2
  | @other s s' memento =>
    refine ⟨?_, Lasts.of_content (fair.spares rfl).2 lasts⟩
    rw [Known, memento]
    exact known

/-- Once something is saved, the next client will know all that is known. -/
theorem Moment.Fits.lasts_of_saved (fits : v.Fits p) (fair : v.Fair p) (steady : v.found.Steady p)
    (saved : v.Saved) {c : Area} (known : v.left.Known c) : v.left.Lasts p c := by
  obtain ⟨⟨q, asked, new⟩, done⟩ := saved
  cases fits with
  | @request s _ q' answered =>
    cases asked
    subst answered
    exact known.lasts (fair.decodes rfl new) ((steady.request named other q).2.2 new done)
  | restart => cases asked
  | other => cases asked

variable {first last : Session σ} {moments : List (Moment σ)}

theorem History.steady (history : History p first moments last) (fair : ∀ v ∈ moments, v.Fair p)
    (steady : first.Steady p) : last.Steady p := by
  induction history with
  | nil => exact steady
  | cons found fits rest ih =>
    subst found
    obtain ⟨here, later⟩ := List.forall_mem_cons.mp fair
    exact ih later (fits.steady named other here steady)

theorem History.lasts (history : History p first moments last) (fair : ∀ v ∈ moments, v.Fair p)
    (steady : first.Steady p) {c : Area} (known : first.Known c) (lasts : first.Lasts p c) :
    last.Known c ∧ last.Lasts p c := by
  induction history with
  | nil => exact ⟨known, lasts⟩
  | cons found fits rest ih =>
    subst found
    obtain ⟨here, later⟩ := List.forall_mem_cons.mp fair
    obtain ⟨still, kept⟩ := fits.lasts named other here steady known lasts
    exact ih later (fits.steady named other here steady) still kept

end Files

/-! ## Once -/

def Moment.Tells (v : Moment σ) (q : Protocol.NoLibraryParams) : Prop :=
  v.left.window.shown = v.found.window.shown ++ [.message (notice q)]

def Moment.Silent (v : Moment σ) : Prop :=
  v.left.window.shown = v.found.window.shown

theorem Moment.Fits.told {v : Moment σ} (fits : v.Fits p) {q : Protocol.NoLibraryParams}
    (asked : v.event = .request q) :
    (v.found.Known (v.found.area q) → v.Silent) ∧ (¬ v.found.Known (v.found.area q) → v.Tells q) := by
  cases fits with
  | @request s _ q' answered =>
    cases asked
    subst answered
    have shown := attend_shown q s
    refine ⟨fun known => ?_, fun new => ?_⟩
    · rw [if_pos known, List.append_nil] at shown
      exact shown
    · rw [if_neg new] at shown
      exact shown
  | restart => cases asked
  | other => cases asked

/-- A client that runs tells each area once: at the first request for it, if the memento did not know it
at first. If the memento has a file that is no backup and that nothing else touches, and what is saved can be
read back, then no later client tells an area that was asked for before a save that succeeded, in that
request or in a later one of the same client. -/
theorem told_once {first last : Session σ} {moments : List (Moment σ)}
    (history : History p first moments last) :
    (∀ before x later q, moments = before ++ x :: later → x.event = .request q →
      (∀ v ∈ before, v.event ≠ .restart) →
      let c := x.found.area q
      (first.Known c ∨ (∃ v ∈ before, v.Asks c) → x.Silent) ∧
        (¬ (first.Known c ∨ ∃ v ∈ before, v.Asks c) → x.Tells q)) ∧
    (∀ name, p.fileName? = some name → p.extension? ≠ some (Utf8.encode "bak") → first.Steady p →
      (∀ v ∈ moments, v.Fair p) →
      ∀ before x between z later c, moments = before ++ x :: (between ++ z :: later) →
        (∀ v ∈ before, v.event ≠ .restart) → (∃ v ∈ before ++ [x], v.Asks c) → x.Saved → z.Asks c →
        z.Silent) := by
  constructor
  · rintro before x later q rfl asked running c
    obtain ⟨middle, begun, ended⟩ := history.split
    have known := begun.known_iff running c
    obtain ⟨rfl, fits, -⟩ := ended.of_cons
    rw [← known]
    exact fits.told asked
  · rintro name named other steady fair before x between z later c rfl running asked saved again
    rw [List.append_cons] at history fair
    obtain ⟨next, upTo, after⟩ := history.split
    obtain ⟨fairThen, fairSince⟩ := List.forall_mem_append.mp fair
    obtain ⟨fairBefore, fairHere⟩ := List.forall_mem_append.mp fairThen
    obtain ⟨middle, begun, step⟩ := upTo.split
    obtain ⟨rfl, fits, rest⟩ := step.of_cons
    obtain rfl := rest.of_nil
    have here := fairHere x List.mem_cons_self
    have steadyThen := begun.steady named other fairBefore steady
    -- the client ran on until the save, so it still knew what it had been asked for
    have known : x.left.Known c := by
      refine (upTo.known_iff (fun v member => ?_) c).mpr (.inr asked)
      rcases List.mem_append.mp member with earlier | last
      · exact running v earlier
      · obtain ⟨⟨q, request, -⟩, -⟩ := saved
        rw [List.mem_singleton.mp last, request]
        nofun
    have lasts := fits.lasts_of_saved named other here steadyThen saved known
    -- whatever follows, restarts included, keeps an area that is known and recorded
    obtain ⟨found, passed, ended⟩ := after.split
    obtain ⟨rfl, fits', -⟩ := ended.of_cons
    have still := passed.lasts named other (List.forall_mem_append.mp fairSince).1
      (fits.steady named other here steadyThen) known lasts
    obtain ⟨q, request, rfl⟩ := again
    exact (fits'.told request).1 still.1

section Example

/-- A client with one folder, an empty tree of files, and a memento whose first save fails. -/
def faultyClient : Session (FaultyHost FileStore) :=
  .new ⟨⟨⟨[⟨"ws", ⟨"file", some ⟨"", .empty, none⟩, "/ws/", none, none⟩⟩], none⟩, ⟨[47, 99]⟩, .empty⟩, 0,
    fun n => if n = 0 then some .permissionDenied else none⟩ ⟨some ⟨[47, 115]⟩, []⟩ none
    (fun _ => .error .noLaunch) 0

def restarted (s : Session (FaultyHost FileStore)) : Session (FaultyHost FileStore) :=
  let found := Memento.load s.files ⟨[47, 115]⟩
  .new { s.store with host := { s.store.host with files := found.2 } } (found.1.toOption.getD .inMemory) none
    (fun _ => .error .noLaunch) 0

theorem load_restarted {s : Session (FaultyHost FileStore)} {m : Memento}
    (loads : (Memento.load s.files ⟨[47, 115]⟩).1.toOption = some m) :
    (restarted s).memento = m ∧
      Memento.load s.files ⟨[47, 115]⟩ = (.ok (restarted s).memento, (restarted s).files) := by
  have memento : (restarted s).memento = (Memento.load s.files ⟨[47, 115]⟩).1.toOption.getD .inMemory := rfl
  have files : (restarted s).files = (Memento.load s.files ⟨[47, 115]⟩).2 := rfl
  rw [memento, files]
  cases loaded : Memento.load s.files ⟨[47, 115]⟩ with
  | mk result files =>
    rw [loaded] at loads
    cases result with
    | ok found => exact ⟨Option.some.inj loads, rfl⟩
    | error e => cases loads

def requestFor (path : String) : Protocol.NoLibraryParams :=
  ⟨⟨⟨"file", some ⟨"", .empty, none⟩, path, none, none⟩⟩⟩

/-- That the user was told of the folder cannot be saved at first. It is saved with what is noted for a file
outside, and the next client is silent. -/
theorem told_once_restarted :
    (attend (requestFor "/ws/a.js") faultyClient).window.shown = [.message (notice (requestFor "/ws/a.js"))] ∧
      (attend (requestFor "/ws/a.js") (restarted (attend (requestFor "/b.js")
        (attend (requestFor "/ws/a.js") faultyClient)))).window.shown = [] := by
  -- the states are named, so that they are not evaluated when moments are compared
  generalize told : attend (requestFor "/ws/a.js") faultyClient = s₁
  generalize toldToo : attend (requestFor "/b.js") s₁ = s₂
  generalize anew : restarted s₂ = s₃
  generalize asked : attend (requestFor "/ws/a.js") s₃ = s₄
  have new : ¬ faultyClient.Known (faultyClient.area (requestFor "/ws/a.js")) := by decide +kernel
  have noted : s₁.memento = ⟨some ⟨[47, 115]⟩, [(MissingLibrary.key, .obj [("global", .bool false),
      ("workspaces", .obj [("file:///ws/", .bool true)])])]⟩ := by
    subst told
    decide +kernel
  have notedToo : s₂.memento = ⟨some ⟨[47, 115]⟩, [(MissingLibrary.key, .obj [("global", .bool true),
      ("workspaces", .obj [("file:///ws/", .bool true)])])]⟩ := by
    subst toldToo told
    decide +kernel
  have saved : ¬ s₁.Known (s₁.area (requestFor "/b.js")) ∧
      (Host.saveMemento s₁.store s₂.memento).1 = .ok () := by
    rw [notedToo]
    subst told
    decide +kernel
  have loads : (Memento.load s₂.files ⟨[47, 115]⟩).1.toOption = some s₂.memento := by
    rw [notedToo]
    subst toldToo told
    decide +kernel
  obtain ⟨kept, loaded⟩ := load_restarted loads
  rw [anew] at kept loaded
  have area : s₃.area (requestFor "/ws/a.js") = faultyClient.area (requestFor "/ws/a.js") := by
    subst anew toldToo told
    decide +kernel
  have knows : s₃.Known (faultyClient.area (requestFor "/ws/a.js")) := by
    rw [Known, kept, notedToo]
    decide +kernel
  have steady : faultyClient.Steady ⟨[47, 115]⟩ :=
    ⟨rfl, FileSystem.wellFormed_of_entries (by decide), FileSystem.holds_of_isDirectory (by decide +kernel),
      FileSystem.holds_of_isDirectory (by decide +kernel)⟩
  let first : Moment (FaultyHost FileStore) := ⟨.request (requestFor "/ws/a.js"), faultyClient, s₁⟩
  let second : Moment (FaultyHost FileStore) := ⟨.request (requestFor "/b.js"), s₁, s₂⟩
  let third : Moment (FaultyHost FileStore) := ⟨.restart, s₂, s₃⟩
  let last : Moment (FaultyHost FileStore) := ⟨.request (requestFor "/ws/a.js"), s₃, s₄⟩
  have history : History ⟨[47, 115]⟩ faultyClient [first, second, third, last] s₄ :=
    .cons rfl (.request told) (.cons rfl (.request toldToo)
      (.cons rfl (.restart loaded) (.cons rfl (.request asked) (.nil _))))
  have fair : ∀ v ∈ [first, second, third, last], v.Fair ⟨[47, 115]⟩ := by
    refine List.forall_mem_cons.mpr ⟨⟨fun _ _ => ?_, nofun⟩, List.forall_mem_cons.mpr
      ⟨⟨fun _ _ => ?_, nofun⟩, List.forall_mem_cons.mpr ⟨⟨nofun, nofun⟩,
        List.forall_mem_singleton.mpr ⟨?_, nofun⟩⟩⟩⟩
    · show s₁.memento.Readable
      rw [noted]
      decide +kernel
    · show s₂.memento.Readable
      rw [notedToo]
      decide +kernel
    · intro q request strange
      cases request
      exact absurd (area ▸ knows) strange
  have running : ∀ v ∈ [first], v.event ≠ .restart := by simp [first]
  have before : ∀ v ∈ ([] : List (Moment (FaultyHost FileStore))), v.event ≠ .restart := by simp
  have nobody : ¬ ∃ v ∈ ([] : List (Moment (FaultyHost FileStore))),
      v.Asks (faultyClient.area (requestFor "/ws/a.js")) := by simp
  obtain ⟨once, across⟩ := told_once history
  have tells : first.Tells (requestFor "/ws/a.js") :=
    (once [] first [second, third, last] _ rfl rfl before).2 fun either => either.elim new nobody
  have silent : last.Silent :=
    across [115] (by decide) (by decide +kernel) steady fair [first] second [third] last []
      (faultyClient.area (requestFor "/ws/a.js")) rfl running
      ⟨first, List.mem_cons_self, _, rfl, rfl⟩ ⟨⟨_, rfl, saved.1⟩, saved.2⟩ ⟨_, rfl, area⟩
  have empty : s₃.window.shown = [] := by
    subst anew
    rfl
  exact ⟨tells, silent.trans empty⟩

end Example

end LinterClient.Session
