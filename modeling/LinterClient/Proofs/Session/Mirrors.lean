import Mathlib.Data.List.Chain
import LinterClient.Proofs.Session.Deeds

/-!
The marks of a client are what its server was told.

Whatever is called and in whichever order, a server is told in turns that a document was opened and that
it was closed, and the marked documents are the ones it was told last to be open. Only a connection that
is closed makes the client forget a document of which its server is not told.
-/

namespace LinterClient.Session

variable {σ : Type}

/-- A connection that refused something stays closed, and nothing was handed to it later. -/
structure Lasting (l : Life σ) : Prop where
  closed : ∀ i, .refused i ∈ l.journal → isConnected i l.state = false
  final : l.journal.Pairwise Entry.Ends

/-- The marks are what the server in use was told last. -/
structure Mirrors (l : Life σ) : Prop where
  /-- Each server is told in turns that a document was opened and closed, beginning with the former. -/
  alternate : ∀ i uri, (false :: told i uri l.journal).IsChain (· ≠ ·)
  /-- A document was marked before its server was told that it was opened. -/
  markedFirst : ∀ i m marked uri, .handed i m marked ∈ l.journal → told? m = some (true, uri) →
    ∃ u ∈ marked, u.text = uri
  held : ∀ i, l.state.client.server = some i → ∀ u ∈ l.state.documents.synced,
    (told i u.text l.journal).getLast? = some true
  complete : ∀ i, l.state.client.server = some i → .refused i ∉ l.journal →
    ∀ uri, (told i uri l.journal).getLast? = some true → ∃ u ∈ l.state.documents.synced, u.text = uri

section Steps

variable {urls : Set Url} {known : σ → Prop} {l l' : Life σ} {documents : Documents}
variable {entries : List Entry}

theorem Continues.subset (continues : Continues l l') {e : Entry} (member : e ∈ l.journal) :
    e ∈ l'.journal := by
  obtain ⟨more, journal, -⟩ := continues.journal
  rw [journal]
  exact List.mem_append_left more member

theorem Lasting.continues (lasting : Lasting l) (regular : Regular urls l) (continues : Continues l l') :
    Lasting l' := by
  obtain ⟨more, journal, within, ends⟩ := continues.journal
  have before {i : Nat} (refused : .refused i ∈ l.journal) : i < l.state.connections.length :=
    regular.fresh (.refused i) refused
  constructor
  · intro i refused
    rw [journal] at refused
    rcases List.mem_append.mp refused with old | new
    · refine Bool.eq_false_iff.mpr fun connected => ?_
      have connected := continues.closed i (before old) connected
      rw [lasting.closed i old] at connected
      cases connected
    · exact (within _ new).2
  · rw [journal]
    refine List.pairwise_append.mpr ⟨lasting.final, ends, fun e old e' new i m marked refused => ?_⟩
    rintro rfl
    subst refused
    have connected := (within _ new).2 (before old)
    rw [lasting.closed i old] at connected
    cases connected

theorem told_handed {i j : Nat} {m : Json} {marked : List Url} {isOpen : Bool} {uri uri' : String}
    (tells : told? m = some (isOpen, uri)) :
    told j uri' [.handed i m marked] = if i = j ∧ uri = uri' then [isOpen] else [] := by
  have entry : Entry.told? j uri' (.handed i m marked) =
      if i = j ∧ uri = uri' then some isOpen else none := by
    simp [Entry.told?, tells]
  rw [told, List.filterMap_cons, entry]
  split <;> rename_i result <;> split at result <;> simp_all

theorem Brings.handed (brings : Brings known documents entries l l') {i : Nat} {m : Json}
    {marked : List Url} (member : .handed i m marked ∈ l'.journal) (tells : (told? m).isSome = true) :
    .handed i m marked ∈ l.journal ∨ .handed i m marked ∈ entries := by
  have kept : Entry.handed i m marked ∈ l'.journal.filter Entry.tells :=
    List.mem_filter.mpr ⟨member, tells⟩
  rw [brings.tells] at kept
  exact (List.mem_append.mp kept).imp_left fun old => (List.mem_filter.mp old).1

theorem Mirrors.same (mirrors : Mirrors l)
    (wire : ∀ i uri, told i uri l'.journal = told i uri l.journal)
    (handed : ∀ i m marked, .handed i m marked ∈ l'.journal → (told? m).isSome = true →
      .handed i m marked ∈ l.journal)
    (subset : ∀ i, .refused i ∈ l.journal → .refused i ∈ l'.journal)
    (server : l'.state.client.server = l.state.client.server)
    (synced : l'.state.documents.synced = l.state.documents.synced) : Mirrors l' where
  alternate i uri := by
    rw [wire]
    exact mirrors.alternate i uri
  markedFirst i m marked uri member tells :=
    mirrors.markedFirst i m marked uri (handed i m marked member (by simp [tells])) tells
  held i runs u marked := by
    rw [wire]
    exact mirrors.held i (server ▸ runs) u (synced ▸ marked)
  complete i runs kept uri last := by
    rw [wire] at last
    rw [synced]
    exact mirrors.complete i (server ▸ runs) (mt (subset i) kept) uri last

theorem Mirrors.quiet (mirrors : Mirrors l) (quiet : Tacit known l l') : Mirrors l' := by
  refine mirrors.same (fun i uri => ?_) (fun i m marked member tells => ?_)
    (fun i => quiet.toContinues.subset) quiet.server (congrArg Documents.synced quiet.documents)
  · rw [quiet.told]
    exact List.append_nil _
  · exact (quiet.handed member tells).resolve_right List.not_mem_nil

theorem Mirrors.of_none {s : Session σ} (mirrors : Mirrors l) (none : s.client.server = none) :
    Mirrors ⟨s, l.journal⟩ where
  alternate := mirrors.alternate
  markedFirst := mirrors.markedFirst
  held i runs := by
    rw [none] at runs
    cases runs
  complete i runs := by
    rw [none] at runs
    cases runs

/-- The server in use is told of a URL what it was not told last, and the marks follow. -/
theorem Mirrors.handed (mirrors : Mirrors l) {i : Nat} {m : Json} {u : Url} {isOpen : Bool}
    (tells : told? m = some (isOpen, u.text)) (runs : l.state.client.server = some i)
    (brings : Brings known documents [.handed i m documents.synced] l l')
    (turn : (told i u.text l.journal).getLast?.getD false ≠ isOpen)
    (marked : isOpen = true → u ∈ documents.synced)
    (unmarked : isOpen = false → ∀ v ∈ documents.synced, v.text ≠ u.text)
    (others : ∀ v, v.text ≠ u.text → (v ∈ documents.synced ↔ v ∈ l.state.documents.synced)) :
    Mirrors l' := by
  have wire (j : Nat) (uri : String) : told j uri l'.journal =
      told j uri l.journal ++ if i = j ∧ u.text = uri then [isOpen] else [] := by
    rw [brings.told, told_handed tells]
  refine ⟨fun j uri => ?_, fun j m' before uri member tells' => ?_, fun j runs' v member => ?_,
    fun j runs' kept uri last => ?_⟩
  · rw [wire, ← List.cons_append]
    split
    · rename_i here
      obtain ⟨rfl, rfl⟩ := here
      refine (mirrors.alternate i u.text).append (List.isChain_singleton _) fun last isLast new isNew => ?_
      rw [List.getLast?_cons, Option.mem_some_iff] at isLast
      rw [List.head?_cons, Option.mem_some_iff] at isNew
      rw [← isLast, ← isNew]
      exact turn
    · rw [List.append_nil]
      exact mirrors.alternate j uri
  · rcases brings.handed member (by simp [tells']) with old | new
    · exact mirrors.markedFirst j m' before uri old tells'
    · cases List.mem_singleton.mp new
      rw [tells] at tells'
      cases tells'
      exact ⟨u, marked rfl, rfl⟩
  · obtain rfl : i = j := Option.some.inj (runs.symm.trans (brings.server ▸ runs'))
    rw [brings.documents] at member
    rw [wire]
    by_cases same : v.text = u.text
    · have isTrue : isOpen = true := by
        by_contra isFalse
        exact unmarked (Bool.eq_false_iff.mpr isFalse) v member same
      rw [if_pos ⟨rfl, same.symm⟩, isTrue, List.getLast?_concat]
    · rw [if_neg fun both => same both.2.symm, List.append_nil]
      exact mirrors.held i runs v ((others v same).mp member)
  · obtain rfl : i = j := Option.some.inj (runs.symm.trans (brings.server ▸ runs'))
    rw [brings.documents]
    rw [wire] at last
    by_cases same : u.text = uri
    · rw [if_pos ⟨rfl, same⟩, List.getLast?_concat, Option.some_inj] at last
      exact ⟨u, marked last, same⟩
    · rw [if_neg fun both => same both.2, List.append_nil] at last
      obtain ⟨v, member, rfl⟩ :=
        mirrors.complete i runs (mt brings.toContinues.subset kept) uri last
      exact ⟨v, (others v (Ne.symm same)).mpr member, rfl⟩

/-- A document without a mark is not one that the server in use was told last to be open. -/
theorem Mirrors.untold (apart : Set.InjOn Url.text urls) (regular : Regular urls l) (lasting : Lasting l)
    (mirrors : Mirrors l) {i : Nat} (runs : l.state.client.server = some i)
    (connected : isConnected i l.state = true) {d : OpenDocument} (opened : d ∈ l.state.documents.opened)
    (unmarked : d.uri ∉ l.state.documents.synced) :
    (told i d.uri.text l.journal).getLast? ≠ some true := by
  intro last
  -- An open connection has refused nothing, so all that its server has open is marked.
  have kept : .refused i ∉ l.journal := fun refused => by
    rw [lasting.closed i refused] at connected
    cases connected
  obtain ⟨u, marked, same⟩ := mirrors.complete i runs kept _ last
  have equal : u = d.uri :=
    apart (regular.filed.known_of_marked marked) (regular.filed.known d opened) same
  exact unmarked (equal ▸ marked)

theorem Mirrors.step (apart : Set.InjOn Url.text urls) (regular : Regular urls l) (lasting : Lasting l)
    (mirrors : Mirrors l) (step : Step urls l l') : Mirrors l' := by
  cases step with
  | quiet quiet => exact mirrors.quiet quiet
  | @opened _ i d runs connected opened notMarked brings =>
    obtain ⟨marks, -⟩ := regular.filed.mark opened notMarked
    refine mirrors.handed (told?_openedFrame d) runs brings (fun last => ?_) (fun _ => ?_) nofun
      fun v other => ?_
    · refine mirrors.untold apart regular lasting runs connected opened notMarked ?_
      cases before : (told i d.uri.text l.journal).getLast? with
      | none => simp [before] at last
      | some isOpen => simpa [before] using last
    · rw [marks]
      exact List.mem_cons_self
    · rw [marks, List.mem_cons]
      exact or_iff_right fun same => other (congrArg Url.text same)
  | @closed _ i uri documents runs connected marked without brings =>
    have mem {v : Url} : v ∈ documents.synced ↔ v ∈ l.state.documents.synced ∧ v ≠ uri := by
      rw [without.synced]
      exact Documents.mem_unmark
    refine mirrors.handed (told?_closedFrame uri) runs brings ?_ nofun (fun _ v member => ?_)
      fun v other => ?_
    · rw [mirrors.held i runs uri marked]
      decide
    · obtain ⟨old, other⟩ := mem.mp member
      exact mt (apart (regular.filed.known_of_marked old) (regular.filed.known_of_marked marked)) other
    · exact mem.trans (and_iff_left fun same => other (congrArg Url.text same))
  | @dropped _ i uri documents runs refused marked without brings =>
    -- The server still has the document open. No mark says so, but its connection refused something.
    refine ⟨fun j uri => ?_, fun j m before uri member tells => ?_, fun j runs' v member => ?_,
      fun j runs' kept => ?_⟩
    · rw [brings.told]
      exact (List.append_nil (told j uri l.journal)).symm ▸ mirrors.alternate j uri
    · exact mirrors.markedFirst j m before uri
        ((brings.handed member (by simp [tells])).resolve_right List.not_mem_nil) tells
    · rw [brings.documents, without.synced] at member
      rw [brings.told]
      exact (List.append_nil (told j v.text l.journal)).symm ▸
        mirrors.held j (brings.server ▸ runs') v (List.mem_filter.mp member).1
    · obtain rfl : i = j := Option.some.inj (runs.symm.trans (brings.server ▸ runs'))
      exact absurd refused kept
  | inserted | judged => exact mirrors.same (fun _ _ => rfl) (fun _ _ _ h _ => h) (fun _ => id) rfl rfl
  | removed notMarked =>
    refine mirrors.same (fun _ _ => rfl) (fun _ _ _ h _ => h) (fun _ => id) rfl ?_
    exact Documents.synced_close.trans
      (congrArg Documents.synced (Documents.unmark_of_notMem notMarked))
  | left => exact mirrors.of_none rfl
  | cleared none => exact mirrors.of_none none
  | @used i none vacant new exists_ =>
    refine ⟨mirrors.alternate, mirrors.markedFirst, fun _ _ u marked => ?_, fun j runs _ uri last => ?_⟩
    · have marked : u ∈ l.state.documents.synced := marked
      rw [vacant] at marked
      cases marked
    · obtain rfl : i = j := Option.some.inj runs
      have last : (told i uri l.journal).getLast? = some true := last
      rw [new uri] at last
      cases last

end Steps

section Runs

variable [Host σ] {urls : Set Url} {l : Life σ} {deeds : List (Deed σ)}

theorem mirrors_new (store : σ) (memento : Memento) (launch : Option Launch)
    (canLaunch : Launch → Except LaunchError Unit) (processId : Nat) :
    Mirrors (⟨.new store memento launch canLaunch processId, []⟩ : Life σ) where
  alternate _ _ := List.isChain_singleton _
  markedFirst := nofun
  held := nofun
  complete := nofun

theorem Deed.Orderly.mirrors {known : σ → Prop} {deed : Deed σ} (apart : Set.InjOn Url.text urls)
    (sound : Sound urls l) (orderly : deed.Orderly urls known l) (holds : Mirrors l ∧ Lasting l) :
    Mirrors (l.follow deed) ∧ Lasting (l.follow deed) := by
  refine orderly.keeps (P := fun l => Mirrors l ∧ Lasting l) apart sound ?_ ?_ holds
  · rintro l l' regular step ⟨mirrors, lasting⟩
    exact ⟨mirrors.step apart regular lasting step, lasting.continues regular step.continues⟩
  · rintro d - - ⟨mirrors, lasting⟩
    exact ⟨mirrors.same (fun _ _ => rfl) (fun _ _ _ h _ => h) (fun _ => id) rfl rfl,
      lasting.closed, lasting.final⟩

/-- In every run, each server is told in turns that a document was opened and closed, and the marks are
on the open documents that the server in use was told last to be open. All of these are marked unless
that server's connection refused something; it is closed then, and takes nothing any more. -/
theorem marks_mirror_server (apart : Set.InjOn Url.text urls) (store : σ) (memento : Memento)
    (launch : Option Launch) (canLaunch : Launch → Except LaunchError Unit) (processId : Nat)
    (deeds : List (Deed σ)) :
    let start : Life σ := ⟨.new store memento launch canLaunch processId, []⟩
    start.Throughout (Deed.Orderly urls fun _ => True) deeds →
      let l := start.after deeds
      Mirrors l ∧ Lasting l ∧
        (∀ u ∈ l.state.documents.synced, ∃ d ∈ l.state.documents.opened, d.uri = u) ∧
        (l.state.client.server = none → l.state.documents.synced = []) := by
  intro start orderly l
  have first : Mirrors start ∧ Lasting start :=
    ⟨mirrors_new store memento launch canLaunch processId, nofun, .nil⟩
  obtain ⟨sound, mirrors, lasting⟩ := (sound_new store memento launch canLaunch processId).after
    (P := fun l => Mirrors l ∧ Lasting l) (Q := fun _ _ => True) apart orderly
    (throughout_of_forall fun _ _ => trivial)
    (fun l deed sound orderly _ holds => orderly.mirrors apart sound holds) first
  exact ⟨mirrors, lasting, sound.filed.marked, sound.vacant⟩

end Runs

/-- A document is opened, closed and opened again. -/
theorem marks_mirror_server_reopened :
    let l := emptyLife.after
      [answering 0, alone (.opened script), alone (.closed scriptUrl), alone (.opened script)]
    Mirrors l ∧ told 0 scriptUrl.text l.journal = [true, false, true] ∧
      l.state.documents.synced = [scriptUrl] := by
  intro l
  have named : ∀ d, (alone (.opened script)).operation = .opened d → d.uri ∈ ({scriptUrl} : Set Url) := by
    rintro _ ⟨⟩
    rfl
  have result := (marks_mirror_server (Set.injOn_singleton Url.text scriptUrl) emptyStore .inMemory none
    (fun _ => .error .noLaunch) 0
    [answering 0, alone (.opened script), alone (.closed scriptUrl), alone (.opened script)]
    ⟨(polite_answering 0).orderly (fun _ => rfl) nofun trivial (by decide +kernel) fun _ _ => trivial,
      (polite_alone _).orderly nofun named trivial (by decide +kernel) fun _ _ => trivial,
      (polite_alone _).orderly nofun nofun trivial (by decide +kernel) fun _ _ => trivial,
      (polite_alone _).orderly nofun named trivial (by decide +kernel) fun _ _ => trivial, trivial⟩).1
  exact ⟨result, by decide +kernel, by decide +kernel⟩

end LinterClient.Session
