import LinterClient.Proofs.Session.Keeping
import LinterClient.Proofs.Session.Operations

/-!
What a client does about documents, about work that is handed to it, and about what its server reports.

Most of it keeps the marks in agreement with the gate. Where a failed probe is noted or forgotten, that
depends on the documents.
-/

namespace LinterClient

theorem ProbeFailures.contains_insert {failures : ProbeFailures} {uri other : Url} :
    (failures.insert uri).contains other = true ↔ other = uri ∨ failures.contains other = true := by
  unfold insert
  split
  · rename_i old
    refine ⟨.inr, fun either => ?_⟩
    rcases either with rfl | member
    · exact old
    · exact member
  · simp [contains, or_comm]

namespace Session

open Documents (Filed)

variable {σ α : Type} [Host σ]

section Wants

variable {store : σ} {failures failures' : ProbeFailures} {d : OpenDocument}

theorem wants_congr (same : failures.contains d.uri = failures'.contains d.uri) :
    Wants store failures d ↔ Wants store failures' d := by
  have outcome : Gate.outcome store failures d.document = Gate.outcome store failures' d.document := by
    unfold Gate.outcome
    rw [show failures.contains d.document.uri = failures'.contains d.document.uri from same]
  rw [Wants, Wants, outcome]

/-- A failed probe is never a reason to tell the server of a document. -/
theorem Wants.empty (wants : Wants store failures d) : Wants store .empty d := by
  cases failed : failures.contains d.uri with
  | false => exact (wants_congr failed).mp wants
  | true =>
    have contains : failures.contains d.document.uri = true := failed
    have none : ProbeFailures.empty.contains d.document.uri = false := rfl
    unfold Wants Gate.outcome at wants ⊢
    simp only [contains, none, if_true] at wants ⊢
    -- The gate looks at the failures last. Where it comes to that, only a configuration file is wanted.
    split at wants <;> rename_i disabled
    · rwa [if_pos disabled]
    rw [if_neg disabled]
    split at wants <;> rename_i validated
    · rwa [if_pos validated]
    have configures : isConfigFile d.uri = true := by simpa [shouldSync] using wants
    simp [shouldSync, configures]

end Wants

section Documents

variable {urls : Set Url} {known : σ → Prop} {gate : σ} {l l' : Life σ} {d : OpenDocument} {uri : Url}

/-- A document is opened anew under a URL that the server knows and should know. -/
structure Reopens (l : Life σ) (d : OpenDocument) : Prop where
  marked : d.uri ∈ l.state.documents.synced
  new : d ∉ l.state.documents.opened
  wanted : Wants l.state.store l.state.failures d

omit [Host σ] in
theorem without_insert (regular : Regular urls l) (apart : Set.InjOn Url.text urls) (named : d.uri ∈ urls) :
    Without urls d.uri l.state.documents ((l.state.documents.insert d).unmark d.uri) where
  synced := rfl
  opened e other := by
    refine regular.filed.mem_insert.trans ⟨fun either => ?_, fun old => .inr ⟨old, other⟩⟩
    rcases either with rfl | ⟨old, -⟩
    · exact absurd rfl other
    · exact old
  filed filed := (filed.insert apart named).unmark

theorem Syncs.steps_insert {i : Nat} (apart : Set.InjOn Url.text urls) (regular : Regular urls l)
    (named : d.uri ∈ urls) (runs : l.state.client.server = some i) (once : ¬ Reopens l d)
    (syncs : Syncs known i d (refile (l.state.documents.insert d) l) l') : Steps urls l l' := by
  have brought {documents : Documents} {told : List Entry}
      (brings : Brings known documents told (refile (l.state.documents.insert d) l) l') :
      Brings (fun _ => True) documents told l l' :=
    ((brings_refile _).trans brings).weaken
  have inserted (unmarked : d.uri ∉ l.state.documents.synced) :
      Step urls l (refile (l.state.documents.insert d) l) := .inserted named (.inl unmarked)
  cases syncs with
  | same agrees =>
    by_cases marked : d.uri ∈ l.state.documents.synced
    -- The document is marked and wanted, so it is an old one.
    · refine .single (.inserted named (.inr ?_))
      by_contra new
      exact once ⟨marked, new, agrees.mpr marked⟩
    · exact .single (inserted marked)
  | opened _ unmarked connected brings =>
    have opened : d ∈ (l.state.documents.insert d).opened := regular.filed.mem_insert.mpr (.inl rfl)
    exact .tail (.single (inserted unmarked)) (.opened runs connected opened unmarked brings.weaken)
  | refused _ unmarked _ quiet => exact .tail (.single (inserted unmarked)) (.quiet quiet.weaken)
  | closed _ marked connected brings =>
    exact .single (.closed runs connected marked (without_insert regular apart named) (brought brings))
  | dropped _ marked closed brings =>
    exact .single (.dropped runs closed marked (without_insert regular apart named) (brought brings))

theorem does_didOpen (apart : Set.InjOn Url.text urls) (sound : Sound urls l) (named : d.uri ∈ urls)
    (once : ¬ Reopens l d) : Does urls known gate (Follows gate l) (didOpen d) l := by
  rw [Does, didOpen, Program.ensures_bind, ensures_onDocuments]
  have filed : Filed urls (l.state.documents.insert d) := sound.filed.insert apart named
  have opened : d ∈ (l.state.documents.insert d).opened := sound.filed.mem_insert.mpr (.inl rfl)
  refine ensures_withServer (fun i runs => ?_) fun none => ?_
  · refine (ensures_syncDocument (l := refile (l.state.documents.insert d) l) filed opened
      (sound.exists_ i runs)).mono fun _ l' syncs => ?_
    have marks := syncs.marks filed opened
    refine ⟨syncs.steps_insert apart sound.toRegular named runs once, fun none => ?_,
      fun follows sees knows => ?_⟩
    · rw [marks.server.trans runs] at none
      cases none
    · refine (syncs.settles filed opened).imp_right fun settled running e member => ?_
      rw [marks.opened] at member
      rw [marks.failures]
      rcases sound.filed.mem_insert.mp member with rfl | ⟨old, other⟩
      · exact settled.trans (sees _ knows _ _)
      -- Other documents keep their marks.
      · exact (marks.others e.uri other).trans (follows (marks.server ▸ running) e old)
  · have unmarked : d.uri ∉ l.state.documents.synced := by
      rw [sound.vacant none]
      exact List.not_mem_nil
    exact ⟨.single (.inserted named (.inl unmarked)), sound.vacant, fun _ _ _ => .inr (.of_none none)⟩

/-- The server is told nothing of a document that is opened anew. -/
theorem ensures_reopen (sound : Sound urls l) (apart : Set.InjOn Url.text urls) (named : d.uri ∈ urls)
    (reopens : Reopens l d) : (didOpen d).Ensures watch (amidst known)
      (fun _ l' => l' = refile (l.state.documents.insert d) l) l := by
  rw [didOpen, Program.ensures_bind, ensures_onDocuments]
  refine ensures_withServer (fun i runs => ?_) fun _ => rfl
  have opened : d ∈ (l.state.documents.insert d).opened := sound.filed.mem_insert.mpr (.inl rfl)
  refine (ensures_syncDocument (l := refile (l.state.documents.insert d) l)
    (sound.filed.insert apart named) opened (sound.exists_ i runs)).mono fun _ l' syncs => ?_
  cases syncs with
  | same => rfl
  | opened _ unmarked => exact absurd reopens.marked unmarked
  | refused _ unmarked => exact absurd reopens.marked unmarked
  | closed unwanted => exact absurd reopens.wanted unwanted
  | dropped unwanted => exact absurd reopens.wanted unwanted

omit [Host σ] in
/-- The server is told that a document was closed whose mark is gone. -/
theorem ensures_tellClosed {documents : Documents} (sound : Sound urls l)
    (marked : uri ∈ l.state.documents.synced) (without : Without urls uri l.state.documents documents) :
    (withServer fun i => do let _ ← notifyClosed i uri).Ensures watch (amidst known)
      (fun _ l' => Steps urls l l' ∧ ∃ told, Brings known documents told l l')
      (refile documents l) := by
  refine ensures_withServer (fun i runs => ?_) fun none => ?_
  · rw [Program.ensures_bind]
    refine ensures_notifyClosed (l := refile documents l) (sound.exists_ i runs)
      (fun l' _ connected brings => ?_) fun l' _ closed quiet => ?_
    · have brought : Brings known documents _ l l' := (brings_refile documents).trans brings
      exact ⟨.single (.closed runs connected marked without brought.weaken), _, brought⟩
    · have brought : Brings known documents _ l l' := (brings_refile documents).quiet quiet
      exact ⟨.single (.dropped runs closed marked without brought.weaken), _, brought⟩
  · rw [sound.vacant none] at marked
    cases marked

theorem does_didClose (sound : Sound urls l) (uri : Url) :
    Does urls known gate (Follows gate l) (didClose uri) l := by
  have vacant {documents : Documents} (same : documents.synced = (l.state.documents.unmark uri).synced)
      (none : l.state.client.server = none) : documents.synced = [] := by
    rw [same, Documents.unmark, sound.vacant none]
    rfl
  have follows (follows : Follows gate l) (running : l.state.client.server ≠ none) (e : OpenDocument)
      (member : e ∈ (l.state.documents.close uri).opened) :
      e.uri ∈ (l.state.documents.close uri).synced ↔ Wants gate l.state.failures e := by
    obtain ⟨old, other⟩ := Documents.mem_close.mp member
    rw [Documents.synced_close, Documents.mem_unmark, and_iff_left other]
    exact follows running e old
  rw [Does, didClose, Program.ensures_bind, Program.ensures_get, Program.ensures_bind,
    ensures_onDocuments]
  split
  · rename_i marked
    have without : Without urls uri l.state.documents (l.state.documents.close uri) :=
      ⟨rfl, fun e other => Documents.mem_close.trans (and_iff_left other), Filed.close⟩
    refine (ensures_tellClosed sound (Documents.isSynced_iff.mp marked) without).mono ?_
    rintro _ l' ⟨steps, told, brings⟩
    refine ⟨steps, ?_, fun before _ _ => .inr ?_⟩
    · rw [brings.server, brings.documents]
      exact vacant rfl
    · rw [Follows, Agrees, brings.server, brings.documents, brings.failures]
      exact follows before
  · rename_i unmarked
    rw [Documents.isSynced_iff] at unmarked
    exact ⟨.single (.removed unmarked), vacant rfl, fun before _ _ => .inr (follows before)⟩

end Documents

section Work

variable {urls : Set Url} {known : σ → Prop} {gate : σ} {l l' : Life σ} {uri : Url}

/-- The same with other failed probes. -/
def judge (failures : ProbeFailures) (l : Life σ) : Life σ :=
  ⟨{ l.state with failures }, l.journal⟩

omit [Host σ] in
theorem change_failures (failures : ProbeFailures) :
    l.change watch { l.state with failures } = judge failures l :=
  change_of_connections rfl

/-- A server runs that does not know a document which it should know once failed probes are forgotten. -/
def Revived (gate : σ) (l : Life σ) : Prop :=
  l.state.client.server ≠ none ∧
    ∃ d ∈ l.state.documents.opened, d.uri ∉ l.state.documents.synced ∧ Wants gate .empty d

/-- A server runs that should know a document although its probe failed. -/
def Needed (gate : σ) (uri : Url) (l : Life σ) : Prop :=
  l.state.client.server ≠ none ∧
    ∃ d ∈ l.state.documents.opened, d.uri = uri ∧ Wants gate (l.state.failures.insert uri) d

instance (gate : σ) (l : Life σ) : Decidable (Revived gate l) :=
  inferInstanceAs (Decidable (_ ∧ ∃ d ∈ _, _))

instance (gate : σ) (uri : Url) (l : Life σ) : Decidable (Needed gate uri l) :=
  inferInstanceAs (Decidable (_ ∧ ∃ d ∈ _, _))

omit [Host σ] in
theorem ensures_watchedFilesChanged (changes : List Protocol.FileEvent) :
    (watchedFilesChanged changes).Ensures watch (amidst known)
      (fun _ l' => Tacit known (judge .empty l) l') l := by
  rw [watchedFilesChanged, Program.ensures_bind, Program.ensures_modify, change_failures]
  refine ensures_withServer (fun i _ => ?_) fun _ => .refl _
  exact Calm.bind (.notify (by simp)) (fun _ => .pure _) _

theorem follows_forget (follows : Follows gate l) (quiet : Tacit known (judge .empty l) l') :
    Follows gate l' ↔ ¬ Revived gate l := by
  rw [Follows, Agrees, quiet.server, quiet.documents, quiet.failures]
  constructor
  · rintro agrees ⟨running, d, opened, unmarked, wants⟩
    exact unmarked ((agrees running d opened).mpr wants)
  · intro settled running d opened
    refine ⟨fun marked => ((follows running d opened).mp marked).empty, fun wants => ?_⟩
    by_contra unmarked
    exact settled ⟨running, d, opened, unmarked, wants⟩

theorem does_watchedFilesChanged (sound : Sound urls l) (changes : List Protocol.FileEvent) :
    Does urls known gate (Follows gate l ∧ ¬ Revived gate l) (watchedFilesChanged changes) l := by
  refine (ensures_watchedFilesChanged changes).mono fun _ l' quiet => ?_
  refine ⟨.head (.judged .empty) quiet.step, quiet.vacant sound.vacant, fun before _ _ => .inr ?_⟩
  exact (follows_forget before.1 quiet).mpr before.2

theorem does_reconfigure (apart : Set.InjOn Url.text urls) (sound : Sound urls l) :
    Does urls known gate True reconfigure l := by
  rw [Does, reconfigure, Program.ensures_bind, Program.ensures_modify, change_failures,
    Program.ensures_bind, Program.ensures_get, Program.ensures_bind]
  have judged : Steps urls l (judge .empty l) := .single (.judged .empty)
  have sound₁ : Sound urls (judge .empty l) := ⟨sound.toRegular.steps apart judged, sound.vacant⟩
  refine (Calm.updateStatus _ _).mono fun _ l₂ shown => ?_
  have sound₂ := sound₁.quiet apart shown
  rw [Program.ensures_bind]
  refine (ensures_syncDocuments gate apart sound₂.toRegular).mono ?_
  rintro _ l₃ ⟨steps, marks, none, agrees⟩
  have result : Result urls known gate True l l₃ := by
    refine ⟨judged.trans (shown.step.trans steps), fun without => ?_, fun _ sees knows => ?_⟩
    · have before : l₂.state.client.server = .none := marks.server ▸ without
      rw [none before]
      exact sound₂.vacant before
    · by_cases without : l₂.state.client.server = .none
      · exact .inr (.of_none (marks.server.trans without))
      · exact (agrees sees (shown.store knows) without).imp_right fun agrees _ => agrees
  refine ensures_withServer (fun i _ => ?_) fun _ => result
  exact (Calm.bind (.notify (by simp)) (fun _ => .pure _) l₃).mono fun _ _ quiet => result.quiet quiet

theorem ensures_probeFailed (sound : Sound urls l) (uri : Url) :
    (handleCommand (.probeFailed uri)).Ensures watch (amidst known) (fun _ l' => Steps urls l l' ∧
      ∃ told, Brings known (l.state.documents.unmark uri) told
        (judge (l.state.failures.insert uri) l) l') l := by
  have judged : Step urls l (judge (l.state.failures.insert uri) l) := .judged _
  have noted : l.change watch { l.state with
      failures := l.state.failures.insert uri, documents := l.state.documents.unmark uri } =
      refile (l.state.documents.unmark uri) (judge (l.state.failures.insert uri) l) :=
    change_of_connections rfl
  rw [handleCommand, Program.ensures_bind, Program.ensures_get, Program.ensures_bind,
    Program.ensures_modify, noted]
  split
  · rename_i marked
    have sound₁ : Sound urls (judge (l.state.failures.insert uri) l) :=
      ⟨⟨sound.filed, sound.exists_, sound.fresh⟩, sound.vacant⟩
    refine (ensures_tellClosed sound₁ (Documents.isSynced_iff.mp marked) (without_unmark uri _)).mono ?_
    rintro _ l' ⟨steps, brings⟩
    exact ⟨.head judged steps, brings⟩
  · rename_i unmarked
    rw [Documents.isSynced_iff] at unmarked
    have same : l.state.documents.unmark uri = l.state.documents := Documents.unmark_of_notMem unmarked
    rw [same]
    exact ⟨.single judged, [], brings_refile _⟩

theorem follows_decline {told : List Entry} (follows : Follows gate l)
    (brings : Brings known (l.state.documents.unmark uri) told
      (judge (l.state.failures.insert uri) l) l') : Follows gate l' ↔ ¬ Needed gate uri l := by
  rw [Follows, Agrees, brings.server, brings.documents, brings.failures]
  constructor
  · rintro agrees ⟨running, d, opened, rfl, wants⟩
    exact (Documents.mem_unmark.mp ((agrees running d opened).mpr wants)).2 rfl
  · intro settled running d opened
    by_cases same : d.uri = uri
    · refine iff_of_false (fun marked => (Documents.mem_unmark.mp marked).2 same) fun wants => ?_
      exact settled ⟨running, d, opened, same, wants⟩
    · have kept : (l.state.failures.insert uri).contains d.uri = l.state.failures.contains d.uri := by
        rw [Bool.eq_iff_iff, ProbeFailures.contains_insert]
        exact or_iff_right same
      rw [Documents.mem_unmark, and_iff_left same]
      exact (follows running d opened).trans (wants_congr kept).symm

/-- What the agreement of marks and gate after a command depends on. -/
def Settles (gate : σ) (l : Life σ) : ClientCommand → Prop
  | .configurationChanged => True
  | .status _ => Follows gate l
  | .probeFailed uri => Follows gate l ∧ ¬ Needed gate uri l

theorem does_handleCommand (apart : Set.InjOn Url.text urls) (sound : Sound urls l) (c : ClientCommand) :
    Does urls known gate (Settles gate l c) (handleCommand c) l := by
  cases c with
  | configurationChanged => exact does_reconfigure apart sound
  | status status =>
    have calm : Calm known (updateStatus (·.setStatus status) : Task σ Unit) := .updateStatus _
    exact calm.does sound
  | probeFailed uri =>
    refine (ensures_probeFailed sound uri).mono ?_
    rintro _ l' ⟨steps, told, brings⟩
    refine ⟨steps, fun none => ?_, fun before _ _ => .inr ((follows_decline before.1 brings).mpr before.2)⟩
    rw [brings.documents, Documents.unmark, sound.vacant (brings.server ▸ none)]
    rfl

omit [Host σ] in
theorem Calm.handleNotification (method : String) (params : Json) :
    Calm known (Session.handleNotification method params : Task σ Unit) := by
  unfold Session.handleNotification
  split
  · split
    · exact .updateStatus _
    · exact .pure _
  · split
    · exact .bind (.modify fun _ => ⟨.of_connections rfl, rfl, rfl, rfl, rfl⟩) fun _ =>
        .bind (.writeLog _ _) fun _ => .announceLater _ _ _
    · exact .pure _
  · exact .pure _

theorem does_handleEvent (apart : Set.InjOn Url.text urls) (sound : Sound urls l) (e : ServerEvent) :
    Does urls known gate (Follows gate l) (handleEvent e) l := by
  cases e with
  | notification method params => exact (Calm.handleNotification _ _).does sound
  | stopped reason => exact (does_serverStopped apart sound).after .refl id fun _ => trivial

/-- What the agreement of marks and gate after the next piece of work depends on. -/
def SettlesNext (gate : σ) (l : Life σ) : Prop :=
  match l.state.commands with
  | c :: _ => Settles gate l c
  | [] => Follows gate l

theorem does_handleQueued (apart : Set.InjOn Url.text urls) (sound : Sound urls l) :
    Does urls known gate (SettlesNext gate l) handleQueued l := by
  rw [Does, handleQueued, Program.ensures_bind, Program.ensures_modifyGet]
  have taken : Tacit known l (l.change watch (takeCommand l.state).2) := .of_idle (idle_takeCommand _)
  have sound₁ := sound.quiet apart taken
  unfold SettlesNext
  -- Taking a command changes the queue, so the case split has to reach what is known of the rest too.
  revert taken sound₁
  unfold takeCommand
  cases l.state.commands with
  | cons c rest =>
    intro taken sound₁
    dsimp only
    rw [Program.ensures_bind]
    refine (does_handleCommand apart sound₁ c).after taken.step taken.store fun settles => ?_
    cases c with
    | configurationChanged => trivial
    | status => exact taken.follows settles
    | probeFailed uri => exact ⟨taken.follows settles.1, settles.2⟩
  | nil =>
    intro taken sound₁
    dsimp only
    rw [Program.ensures_bind]
    refine (Calm.modifyGet idle_takeEvent _).mono fun event l₂ took => ?_
    have quiet := taken.trans took
    cases event with
    | none => exact .of_quiet sound quiet
    | some e =>
      dsimp only
      rw [Program.ensures_bind]
      exact (does_handleEvent apart (sound.quiet apart quiet) e).after quiet.step quiet.store
        quiet.follows

omit [Host σ] in
theorem Tacit.of_spares {s : Session σ} (spares : Spares l.state s) :
    Tacit (fun _ => True) l (l.change watch s) := by
  rw [change_of_connections spares.connections]
  exact ⟨.of_connections spares.connections, congrArg Client.server spares.client, spares.documents,
    spares.failures, id, (List.append_nil _).symm⟩

omit [Host σ] in
theorem spares_runPending (s : Session σ) : Spares s (runPending s) := by
  unfold runPending
  split
  · rename_i c _
    cases c <;> exact ⟨rfl, rfl, rfl, rfl⟩
  · exact ⟨rfl, rfl, rfl, rfl⟩

/-- A call that migrates spares the client. -/
theorem Act.spares {r r' : Role} {s s' : Session σ} (act : Act r s r' s') : Spares s s' := by
  cases act with
  | aside alike => exact ⟨alike.connections, alike.client, alike.documents, alike.failures⟩
  | proceed act =>
    cases act with
    | finish => exact spares_runPending s
    | close =>
      obtain ⟨connections, client, documents, failures⟩ := spares_runPending s
      exact ⟨connections, client, documents, failures⟩
    | _ => exact ⟨rfl, rfl, rfl, rfl⟩
  | _ => exact ⟨rfl, rfl, rfl, rfl⟩

theorem ensures_migrateNow (resource : Option Url) :
    (migrateNow resource).Ensures watch (amidst known) (fun _ l' => Tacit (fun _ => True) l l') l := by
  have keeps : (migrateNow resource).Keeps conduct ready (fun _ _ _ => True) ⟨.idle, []⟩ l.state :=
    migrateNow_keeps fun _ _ => trivial
  exact keeps.ensures Tacit.refl Tacit.trans (fun act => .of_spares (Act.spares act))
    (fun _ relied => (Tacit.wake relied).weaken) fun relied => relied.2.1

theorem does_restart (apart : Set.InjOn Url.text urls) (sound : Sound urls l) (active : Option Url) :
    Does urls known gate True (execute .restart active) l := by
  rw [Does, execute, Program.ensures_bind]
  have stops : stop.Ensures watch (amidst known) (fun _ l₁ => Ended urls known l l₁) l := ensures_stop
  refine stops.mono fun _ l₁ ended => ?_
  rw [Program.ensures_bind, Program.ensures_modify]
  have reset : Tacit known l₁ (l₁.change watch (withoutHistory l₁.state)) :=
    .of_idle ⟨.of_connections rfl, rfl, rfl, rfl, rfl⟩
  have ended₂ := ended.quiet reset
  exact (does_start apart (ended₂.sound apart sound) ended₂.server).after ended₂.steps ended₂.store id

theorem does_execute (apart : Set.InjOn Url.text urls) (sound : Sound urls l) (c : Command)
    (active : Option Url) : Does urls known gate (Follows gate l) (execute c active) l := by
  cases c with
  | migrateSettings =>
    rw [Does, execute, Program.ensures_bind]
    exact (ensures_migrateNow active).mono fun _ _ quiet => .of_quiet sound quiet
  | restart => exact (does_restart apart sound active).after .refl id fun _ => trivial
  | showOutput =>
    exact Calm.does (.bind (.modify fun _ => ⟨.of_connections rfl, rfl, rfl, rfl, rfl⟩) fun _ => .pure _)
      sound

end Work

end Session

end LinterClient
