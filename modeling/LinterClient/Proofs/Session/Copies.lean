import LinterClient.Proofs.Session.Deeds

/-!
What a server holds of a document, and what its client keeps.

A server has a document as it was when it was told that it was opened. The client keeps the same, unless
the document was replaced meanwhile: a client that opens a document anew tells its server nothing if the
server knows the document already.
-/

namespace LinterClient.Session

variable {σ : Type}

def Entry.opening? (i : Nat) (uri : String) : Entry → Option Json
  | .handed j m _ => if j = i ∧ Session.told? m = some (true, uri) then some m else none
  | .refused _ => none

/-- The frames in which the server of a connection was told that a document was opened. -/
def openings (i : Nat) (uri : String) (journal : List Entry) : List Json :=
  journal.filterMap (Entry.opening? i uri)

/-- If the server in use knows a document, it was told of it last as the client keeps it. -/
def Copied (uri : Url) (l : Life σ) : Prop :=
  ∀ i, l.state.client.server = some i → uri ∈ l.state.documents.synced →
    ∀ d ∈ l.state.documents.opened, d.uri = uri →
      (openings i uri.text l.journal).getLast? = some (openedFrame d)

section Openings

variable {known : σ → Prop} {urls : Set Url} {l l' : Life σ} {documents : Documents}
variable {entries : List Entry} {uri : Url} {i j : Nat}

theorem openings_filter (i : Nat) (uri : String) (journal : List Entry) :
    openings i uri (journal.filter Entry.tells) = openings i uri journal := by
  rw [openings, openings, List.filterMap_filter]
  congr 1
  funext e
  cases e with
  | refused => rfl
  | handed j m marked =>
    cases telling : Session.told? m <;> simp [Entry.tells, Entry.opening?, telling]

theorem Brings.openings (brings : Brings known documents entries l l') (i : Nat) (uri : String) :
    openings i uri l'.journal = openings i uri l.journal ++ openings i uri entries := by
  rw [← openings_filter, brings.tells, Session.openings, List.filterMap_append]
  congr 1
  exact openings_filter i uri l.journal

theorem openings_other {m : Json} {marked : List Url} {isOpen : Bool} {text : String}
    (tells : told? m = some (isOpen, text)) (other : isOpen = true → text ≠ uri.text) :
    openings i uri.text [.handed j m marked] = [] := by
  have different : ¬ (j = i ∧ told? m = some (true, uri.text)) := by
    rintro ⟨-, same⟩
    rw [tells] at same
    cases same
    exact other rfl rfl
  have none : Entry.opening? i uri.text (.handed j m marked) = .none := if_neg different
  rw [openings, List.filterMap_cons, none]
  rfl

/-- Where neither the server nor the client learned of another version, all is as before. -/
theorem Copied.same (copied : Copied uri l)
    (wire : uri ∈ l'.state.documents.synced →
      ∀ i, openings i uri.text l'.journal = openings i uri.text l.journal)
    (server : l'.state.client.server = l.state.client.server)
    (marked : uri ∈ l'.state.documents.synced → uri ∈ l.state.documents.synced)
    (opened : uri ∈ l'.state.documents.synced → ∀ d ∈ l'.state.documents.opened, d.uri = uri →
      d ∈ l.state.documents.opened) : Copied uri l' := by
  intro i runs member d here same
  rw [wire member]
  exact copied i (server ▸ runs) (marked member) d (opened member d here same) same

theorem Copied.without (copied : Copied uri l) {other : Url}
    (without : Without urls other l.state.documents documents)
    (brings : Brings known documents entries l l')
    (silent : ∀ i, openings i uri.text entries = []) : Copied uri l' := by
  have mem : uri ∈ documents.synced → uri ∈ l.state.documents.synced ∧ uri ≠ other := by
    rw [without.synced]
    exact Documents.mem_unmark.mp
  refine copied.same (fun _ i => ?_) brings.server (fun member => ?_) fun member d here same => ?_
  · rw [brings.openings, silent, List.append_nil]
  · rw [brings.documents] at member
    exact (mem member).1
  · rw [brings.documents] at member here
    exact (without.opened d (same ▸ (mem member).2)).mp here

theorem Copied.step (apart : Set.InjOn Url.text urls) (regular : Regular urls l) (copied : Copied uri l)
    (step : Step urls l l') : Copied uri l' := by
  cases step with
  | quiet quiet =>
    refine copied.same (fun _ i => ?_) quiet.server (fun member => ?_) fun _ d here _ => ?_
    · rw [quiet.openings]
      exact List.append_nil _
    · exact congrArg Documents.synced quiet.documents ▸ member
    · exact congrArg Documents.opened quiet.documents ▸ here
  | @opened _ i d runs connected opened unmarked brings =>
    obtain ⟨marks, filed⟩ := regular.filed.mark opened unmarked
    by_cases this : d.uri = uri
    -- What was handed last is the frame of the one document that is kept under the URL.
    · subst this
      intro j runs' _ e here same
      obtain rfl : i = j := Option.some.inj (runs.symm.trans (brings.server ▸ runs'))
      rw [brings.documents] at here
      have member : d ∈ (l.state.documents.mark d.uri).opened := by
        rw [marks]
        exact opened
      rw [filed.unique here member same, brings.openings]
      have told : openings i d.uri.text
          [.handed i (openedFrame d) (l.state.documents.mark d.uri).synced] = [openedFrame d] := by
        simp [openings, Entry.opening?, told?_openedFrame]
      rw [told, List.getLast?_concat]
    · have before (member : uri ∈ l'.state.documents.synced) : uri ∈ l.state.documents.synced := by
        rw [brings.documents, marks] at member
        exact (List.mem_cons.mp member).resolve_left (Ne.symm this)
      refine copied.same (fun member j => ?_) brings.server before fun _ e here _ => ?_
      · have other : d.uri.text ≠ uri.text := fun same => this <|
          apart (regular.filed.known d opened) (regular.filed.known_of_marked (before member)) same
        rw [brings.openings, openings_other (told?_openedFrame d) fun _ => other, List.append_nil]
      · rw [brings.documents, marks] at here
        exact here
  | closed _ _ _ without brings =>
    exact copied.without without brings fun i => openings_other (told?_closedFrame _) nofun
  | dropped _ _ _ without brings => exact copied.without without brings fun _ => rfl
  | @inserted d _ either =>
    refine copied.same (fun _ _ => rfl) rfl id fun member e here same => ?_
    rcases regular.filed.mem_insert.mp here with rfl | ⟨old, -⟩
    · exact either.resolve_left fun unmarked => unmarked (same ▸ member)
    · exact old
  | removed =>
    refine copied.same (fun _ _ => rfl) rfl (fun member => ?_) fun _ e here _ => ?_
    · exact (Documents.mem_unmark.mp member).1
    · exact (Documents.mem_close.mp here).1
  | judged => exact copied.same (fun _ _ => rfl) rfl id fun _ _ here _ => here
  | left => exact nofun
  | cleared => exact nofun
  | used _ vacant =>
    intro i _ member
    have member : uri ∈ l.state.documents.synced := member
    rw [vacant] at member
    cases member

end Openings

section Runs

variable [Host σ] {known : σ → Prop} {urls : Set Url} {l : Life σ} {deed : Deed σ} {d e : OpenDocument}
variable {uri : Url}

theorem Deed.Orderly.copied (apart : Set.InjOn Url.text urls) (sound : Sound urls l)
    (orderly : deed.Orderly urls known l) (kept : ¬ deed.Replaces uri l) (copied : Copied uri l) :
    Copied uri (l.follow deed) := by
  refine orderly.keeps apart sound (fun _ _ regular step copied => copied.step apart regular step)
    (fun d reopens opens copied => ?_) copied
  refine copied.same (fun _ _ => rfl) rfl id fun _ e here same => ?_
  rcases sound.filed.mem_insert.mp here with rfl | ⟨old, -⟩
  · exact absurd ⟨e, opens, same, reopens⟩ kept
  · exact old

/-- The server keeps the document that was replaced. -/
theorem Deed.Orderly.copied_iff (apart : Set.InjOn Url.text urls) (sound : Sound urls l)
    (orderly : deed.Orderly urls known l) (opens : deed.operation = .opened d) (reopens : Reopens l d)
    (tracked : e ∈ l.state.documents.opened) (same : e.uri = d.uri) (copied : Copied d.uri l) :
    Copied d.uri (l.follow deed) ↔ openedFrame e = openedFrame d := by
  have quiet := orderly.reopened apart sound opens reopens
  have filed := sound.filed.insert apart (orderly.named d opens)
  have opened : d ∈ (l.state.documents.insert d).opened := sound.filed.mem_insert.mpr (.inl rfl)
  have documents : (l.follow deed).state.documents = l.state.documents.insert d := quiet.documents
  have wire (i : Nat) : openings i d.uri.text (l.follow deed).journal = openings i d.uri.text l.journal := by
    rw [quiet.openings]
    exact List.append_nil _
  obtain ⟨i, runs⟩ : ∃ i, l.state.client.server = some i := by
    refine Option.ne_none_iff_exists'.mp fun none => ?_
    have marked := reopens.marked
    rw [sound.vacant none] at marked
    cases marked
  have last := copied i runs reopens.marked e tracked same
  constructor
  · intro again
    have new := again i (quiet.server.trans runs) (documents ▸ reopens.marked) d (documents ▸ opened) rfl
    rw [wire, last] at new
    exact Option.some.inj new
  · intro equal j runs' _ e' here same'
    obtain rfl : i = j := Option.some.inj (runs.symm.trans (quiet.server ▸ runs'))
    rw [documents] at here
    rw [wire, last, equal, filed.unique here opened same']

/-- From a time at which a document is not marked on, what the server was told of it last is what the
client keeps, up to the first time that the document is opened anew while the server knows it. Then the
server keeps what it had: its copy is right only if it would be told the same again. -/
theorem copies_until_replaced (apart : Set.InjOn Url.text urls) (store : σ) (memento : Memento)
    (launch : Option Launch) (canLaunch : Launch → Except LaunchError Unit) (processId : Nat)
    (before since : List (Deed σ)) :
    let start : Life σ := ⟨.new store memento launch canLaunch processId, []⟩
    let l := start.after before
    let l' := l.after since
    start.Throughout (Deed.Orderly urls fun _ => True) before →
      l.Throughout (Deed.Orderly urls fun _ => True) since →
        ∀ uri ∉ l.state.documents.synced, l.Throughout (fun deed l => ¬ deed.Replaces uri l) since →
          Copied uri l' ∧
            ∀ deed d e, deed.Orderly urls (fun _ => True) l' → deed.operation = .opened d → d.uri = uri →
              Reopens l' d → e ∈ l'.state.documents.opened → e.uri = uri →
                (Copied uri (l'.follow deed) ↔ openedFrame e = openedFrame d) := by
  intro start l l' orderly orderly' uri unmarked kept
  obtain ⟨sound, -⟩ := (sound_new store memento launch canLaunch processId).after
    (P := fun _ => True) (Q := fun _ _ => True) apart orderly (throughout_of_forall fun _ _ => trivial)
    (fun _ _ _ _ _ => id) trivial
  have first : Copied uri l := fun _ _ marked => absurd marked unmarked
  obtain ⟨sound', copied⟩ := sound.after apart orderly' kept
    (fun l deed sound orderly kept copied => orderly.copied apart sound kept copied) first
  refine ⟨copied, ?_⟩
  rintro deed d e orderly opens rfl reopens tracked same
  exact orderly.copied_iff apart sound' opens reopens tracked same copied

end Runs

/-- The same document in another language, after an edit. -/
def editedScript : OpenDocument := ⟨⟨scriptUrl, "typescript"⟩, "let b", 2⟩

theorem copies_until_replaced_edited :
    let l := emptyLife.after [answering 0, alone (.opened script)]
    let l' := l.follow (alone (.opened editedScript))
    Copied scriptUrl l ∧ ¬ Copied scriptUrl l' ∧ scriptUrl ∈ l'.state.documents.synced ∧
      openings 0 scriptUrl.text l'.journal = [openedFrame script] ∧
      l'.state.documents.get? scriptUrl = some editedScript := by
  intro l l'
  have named (d : OpenDocument) (here : d.uri = scriptUrl) (d' : OpenDocument)
      (opens : (alone (.opened d)).operation = .opened d') : d'.uri ∈ ({scriptUrl} : Set Url) := by
    cases opens
    exact here
  have orderly : emptyLife.Throughout (Deed.Orderly {scriptUrl} fun _ => True)
      [answering 0, alone (.opened script)] :=
    ⟨(polite_answering 0).orderly (fun _ => rfl) nofun trivial (by decide +kernel) fun _ _ => trivial,
      (polite_alone _).orderly nofun (named script rfl) trivial (by decide +kernel) fun _ _ => trivial,
      trivial⟩
  have kept : emptyLife.Throughout (fun deed l => ¬ deed.Replaces scriptUrl l)
      [answering 0, alone (.opened script)] := by
    refine ⟨?_, ?_, trivial⟩
    · rintro ⟨d, opens, -⟩
      cases opens
    · rintro ⟨d, -, here, marked, -⟩
      rw [here] at marked
      exact absurd marked (by decide +kernel)
  have result := copies_until_replaced (Set.injOn_singleton Url.text scriptUrl) emptyStore .inMemory none
    (fun _ => .error .noLaunch) 0 [] [answering 0, alone (.opened script)] trivial orderly scriptUrl
    List.not_mem_nil kept
  have reopens : Reopens l editedScript := by
    refine ⟨?_, ?_, ?_⟩ <;> decide +kernel
  have again : (alone (.opened editedScript)).Orderly {scriptUrl} (fun _ => True) l :=
    (polite_alone _).orderly nofun (named editedScript rfl) trivial (by decide +kernel) fun _ _ => trivial
  have stale := result.2 _ editedScript script again rfl rfl reopens (by decide +kernel) rfl
  exact ⟨result.1, fun copied => absurd (stale.mp copied) (by decide +kernel), by decide +kernel,
    by decide +kernel, by decide +kernel⟩

end LinterClient.Session
