import Mathlib.Logic.Relation
import LinterClient.Proofs.Documents
import LinterClient.Proofs.Session.Sending

/-!
What the operations of a client do to its documents, and what they tell the server.

One step opens or closes one document on the server's side, or changes one thing that only the client
knows. Every operation is a number of such steps.
-/

namespace LinterClient.Session

open Documents (Filed)

variable {σ : Type}

/-- Documents with the same URLs and marks as others, but for one URL, which has no mark. -/
structure Without (urls : Set Url) (uri : Url) (docs docs' : Documents) : Prop where
  synced : docs'.synced = docs.synced.filter (· ≠ uri)
  opened : ∀ e, e.uri ≠ uri → (e ∈ docs'.opened ↔ e ∈ docs.opened)
  filed : Filed urls docs → Filed urls docs'

/-- One step of a client. -/
inductive Step (urls : Set Url) (l : Life σ) : Life σ → Prop where
  | quiet {l' : Life σ} : Tacit (fun _ => True) l l' → Step urls l l'
  | opened {l' : Life σ} {i : Nat} {d : OpenDocument} :
    l.state.client.server = some i → isConnected i l.state = true →
      d ∈ l.state.documents.opened → d.uri ∉ l.state.documents.synced →
        Brings (fun _ => True) (l.state.documents.mark d.uri)
          [.handed i (openedFrame d) (l.state.documents.mark d.uri).synced] l l' → Step urls l l'
  | closed {l' : Life σ} {i : Nat} {uri : Url} {documents : Documents} :
    l.state.client.server = some i → isConnected i l.state = true →
      uri ∈ l.state.documents.synced → Without urls uri l.state.documents documents →
        Brings (fun _ => True) documents [.handed i (closedFrame uri) documents.synced] l l' →
          Step urls l l'
  | dropped {l' : Life σ} {i : Nat} {uri : Url} {documents : Documents} :
    l.state.client.server = some i → .refused i ∈ l'.journal →
      uri ∈ l.state.documents.synced → Without urls uri l.state.documents documents →
        Brings (fun _ => True) documents [] l l' → Step urls l l'
  | inserted {d : OpenDocument} : d.uri ∈ urls →
    (d.uri ∉ l.state.documents.synced ∨ d ∈ l.state.documents.opened) →
      Step urls l (refile (l.state.documents.insert d) l)
  | removed {uri : Url} : uri ∉ l.state.documents.synced →
    Step urls l (refile (l.state.documents.close uri) l)
  | judged (failures : ProbeFailures) : Step urls l ⟨{ l.state with failures }, l.journal⟩
  | left : Step urls l ⟨setServer none l.state, l.journal⟩
  | cleared : l.state.client.server = none → Step urls l (refile l.state.documents.clearMarks l)
  | used {i : Nat} : l.state.client.server = none → l.state.documents.synced = [] →
    (∀ uri, told i uri l.journal = []) → i < l.state.connections.length →
      Step urls l ⟨setServer (some i) l.state, l.journal⟩

abbrev Steps (urls : Set Url) : Life σ → Life σ → Prop :=
  Relation.ReflTransGen (Step urls)

/-- What is so at all times. -/
structure Regular (urls : Set Url) (l : Life σ) : Prop where
  filed : Filed urls l.state.documents
  exists_ : ∀ i, l.state.client.server = some i → i < l.state.connections.length
  fresh : ∀ e ∈ l.journal, e.connection < l.state.connections.length

section Steps

variable {urls : Set Url} {l l' : Life σ} {d : OpenDocument} {uri : Url}

theorem Step.continues (step : Step urls l l') : Continues l l' := by
  cases step with
  | quiet quiet => exact quiet.toContinues
  | opened _ _ _ _ brings => exact brings.toContinues
  | closed _ _ _ _ brings => exact brings.toContinues
  | dropped _ _ _ _ brings => exact brings.toContinues
  | _ => exact .of_connections rfl

theorem Steps.continues (steps : Steps urls l l') : Continues l l' := by
  induction steps with
  | refl => exact .refl l
  | tail _ step ih => exact ih.trans step.continues

theorem Continues.fresh (continues : Continues l l')
    (fresh : ∀ e ∈ l.journal, e.connection < l.state.connections.length) :
    ∀ e ∈ l'.journal, e.connection < l'.state.connections.length := by
  obtain ⟨more, journal, within, -⟩ := continues.journal
  intro e member
  rw [journal] at member
  rcases List.mem_append.mp member with old | new
  · exact Nat.lt_of_lt_of_le (fresh e old) continues.length
  · have taken := within e new
    cases e <;> exact taken.1

variable (apart : Set.InjOn Url.text urls)
include apart

theorem Regular.step (regular : Regular urls l) (step : Step urls l l') : Regular urls l' := by
  have continues := step.continues
  have exists_ (server : l'.state.client.server = l.state.client.server) (i : Nat)
      (runs : l'.state.client.server = some i) : i < l'.state.connections.length :=
    Nat.lt_of_lt_of_le (regular.exists_ i (server ▸ runs)) continues.length
  refine ⟨?_, ?_, continues.fresh regular.fresh⟩
  · cases step with
    | quiet quiet => exact quiet.documents ▸ regular.filed
    | opened _ _ opened unmarked brings =>
      exact brings.documents ▸ (regular.filed.mark opened unmarked).2
    | closed _ _ _ without brings => exact brings.documents ▸ without.filed regular.filed
    | dropped _ _ _ without brings => exact brings.documents ▸ without.filed regular.filed
    | inserted known => exact regular.filed.insert apart known
    | removed => exact regular.filed.close
    | cleared => exact regular.filed.clearMarks
    | _ => exact regular.filed
  · cases step with
    | quiet quiet => exact exists_ quiet.server
    | opened _ _ _ _ brings => exact exists_ brings.server
    | closed _ _ _ _ brings => exact exists_ brings.server
    | dropped _ _ _ _ brings => exact exists_ brings.server
    | left => exact nofun
    | used _ _ _ new =>
      rintro _ ⟨⟩
      exact new
    | _ => exact regular.exists_

theorem Regular.steps (regular : Regular urls l) (steps : Steps urls l l') : Regular urls l' := by
  induction steps with
  | refl => exact regular
  | tail _ step ih => exact ih.step apart step

end Steps

variable [Host σ]

/-- Whether the server should know a document, by the settings in a store. -/
def Wants (store : σ) (failures : ProbeFailures) (d : OpenDocument) : Prop :=
  shouldSync d.uri (Gate.outcome store failures d.document) = true

instance (store : σ) (failures : ProbeFailures) (d : OpenDocument) : Decidable (Wants store failures d) :=
  inferInstanceAs (Decidable (_ = true))

/-- What is done about one document: nothing if the server knows it exactly if it should. -/
inductive Syncs (known : σ → Prop) (i : Nat) (d : OpenDocument) (l : Life σ) : Life σ → Prop where
  | same : (Wants l.state.store l.state.failures d ↔ d.uri ∈ l.state.documents.synced) →
    Syncs known i d l l
  | opened {l' : Life σ} : Wants l.state.store l.state.failures d →
    d.uri ∉ l.state.documents.synced → isConnected i l.state = true →
      Brings known (l.state.documents.mark d.uri)
        [.handed i (openedFrame d) (l.state.documents.mark d.uri).synced] l l' → Syncs known i d l l'
  | refused {l' : Life σ} : Wants l.state.store l.state.failures d →
    d.uri ∉ l.state.documents.synced → .refused i ∈ l'.journal → Tacit known l l' →
      Syncs known i d l l'
  | closed {l' : Life σ} : ¬ Wants l.state.store l.state.failures d →
    d.uri ∈ l.state.documents.synced → isConnected i l.state = true →
      Brings known (l.state.documents.unmark d.uri)
        [.handed i (closedFrame d.uri) (l.state.documents.unmark d.uri).synced] l l' →
        Syncs known i d l l'
  | dropped {l' : Life σ} : ¬ Wants l.state.store l.state.failures d →
    d.uri ∈ l.state.documents.synced → .refused i ∈ l'.journal →
      Brings known (l.state.documents.unmark d.uri) [] l l' → Syncs known i d l l'

section Document

variable {known : σ → Prop} {urls : Set Url} {i : Nat} {d : OpenDocument} {l l' : Life σ}

omit [Host σ] in
theorem ensures_onDocuments {f : Documents → Documents} {post : Unit → Life σ → Prop} :
    (onDocuments f).Ensures watch (amidst known) post l ↔
      post () (refile (f l.state.documents) l) := by
  rw [onDocuments, Program.ensures_modify, change_documents]

theorem ensures_syncDocument (filed : Filed urls l.state.documents)
    (opened : d ∈ l.state.documents.opened) (exists_ : i < l.state.connections.length) :
    (syncDocument i d).Ensures watch (amidst known) (fun _ l' => Syncs known i d l l') l := by
  rw [syncDocument, Program.ensures_bind, Program.ensures_get]
  dsimp only
  split
  · rename_i opens
    obtain ⟨wanted, unmarked⟩ : Wants l.state.store l.state.failures d ∧
        d.uri ∉ l.state.documents.synced := by
      simpa [Wants] using opens
    -- The mark is set before the frame is sent, and taken back if the connection refuses it.
    rw [Program.ensures_bind, ensures_onDocuments, Program.ensures_bind]
    refine ensures_notifyOpened (l := refile (l.state.documents.mark d.uri) l) exists_
      (fun l' connected brings => ?_) fun l' e closed quiet => ?_
    · exact .opened wanted unmarked connected ((brings_refile _).trans brings)
    · rw [ensures_onDocuments]
      refine .refused wanted unmarked closed ?_
      have marked : l'.state.documents = l.state.documents.mark d.uri := quiet.documents
      have back : l'.state.documents.unmark d.uri = l.state.documents := by
        rw [marked, filed.unmark_mark opened unmarked]
      have undone : Brings known (l'.state.documents.unmark d.uri) [] l
          (refile (l'.state.documents.unmark d.uri) l') :=
        ((brings_refile _).trans quiet).trans (brings_refile _)
      rwa [back] at undone ⊢
  · split
    · rename_i closes
      obtain ⟨unwanted, marked⟩ : ¬ Wants l.state.store l.state.failures d ∧
          d.uri ∈ l.state.documents.synced := by
        simpa [Wants] using closes
      -- Here the mark goes first, and stays away even if the frame is refused.
      rw [Program.ensures_bind, ensures_onDocuments, Program.ensures_bind]
      refine ensures_notifyClosed (l := refile (l.state.documents.unmark d.uri) l) exists_
        (fun l' _ connected brings => ?_) fun l' _ closed quiet => ?_
      · exact .closed unwanted marked connected ((brings_refile _).trans brings)
      · exact .dropped unwanted marked closed ((brings_refile _).quiet quiet)
    · rename_i notOpens notCloses
      refine .same ?_
      simp only [Wants, ← Documents.isSynced_iff]
      revert notOpens notCloses
      generalize shouldSync _ _ = wanted
      generalize l.state.documents.isSynced d.uri = synced
      cases wanted <;> cases synced <;> simp

omit [Host σ] in
theorem without_unmark (uri : Url) (docs : Documents) : Without urls uri docs (docs.unmark uri) :=
  ⟨rfl, fun _ _ => Iff.rfl, Filed.unmark⟩

theorem Syncs.steps (syncs : Syncs known i d l l') (runs : l.state.client.server = some i)
    (opened : d ∈ l.state.documents.opened) : Steps urls l l' := by
  cases syncs with
  | same => exact .refl
  | opened _ unmarked connected brings =>
    exact .single (.opened runs connected opened unmarked brings.weaken)
  | refused _ _ _ quiet => exact .single (.quiet quiet.weaken)
  | closed _ marked connected brings =>
    exact .single (.closed runs connected marked (without_unmark _ _) brings.weaken)
  | dropped _ marked closed brings =>
    exact .single (.dropped runs closed marked (without_unmark _ _) brings.weaken)

/-- Nothing else is touched than the mark of one document. -/
structure Marks (known : σ → Prop) (uris : Set Url) (l l' : Life σ) : Prop extends Continues l l' where
  server : l'.state.client.server = l.state.client.server
  failures : l'.state.failures = l.state.failures
  opened : l'.state.documents.opened = l.state.documents.opened
  store : known l.state.store → known l'.state.store
  others : ∀ uri ∉ uris, uri ∈ l'.state.documents.synced ↔ uri ∈ l.state.documents.synced

theorem Syncs.marks (syncs : Syncs known i d l l') (filed : Filed urls l.state.documents)
    (opened : d ∈ l.state.documents.opened) : Marks known {d.uri} l l' := by
  have frame {documents : Documents} {told : List Entry} (brings : Brings known documents told l l')
      (same : documents.opened = l.state.documents.opened)
      (others : ∀ uri ≠ d.uri, uri ∈ documents.synced ↔ uri ∈ l.state.documents.synced) :
      Marks known {d.uri} l l' :=
    ⟨brings.toContinues, brings.server, brings.failures, brings.documents.symm ▸ same, brings.store,
      fun uri other => brings.documents.symm ▸ others uri other⟩
  cases syncs with
  | same => exact ⟨.refl l, rfl, rfl, rfl, id, fun _ _ => Iff.rfl⟩
  | opened _ unmarked _ brings =>
    have marked := (filed.mark opened unmarked).1
    refine frame brings (by rw [marked]) fun uri other => ?_
    rw [marked]
    simp [other]
  | refused _ _ _ quiet => exact frame quiet rfl fun _ _ => Iff.rfl
  | closed _ _ _ brings =>
    exact frame brings rfl fun uri other => Documents.mem_unmark.trans (and_iff_left other)
  | dropped _ _ _ brings =>
    exact frame brings rfl fun uri other => Documents.mem_unmark.trans (and_iff_left other)

/-- A connection refused something. -/
def Refused (l : Life σ) : Prop :=
  ∃ i, .refused i ∈ l.journal

omit [Host σ] in
theorem Continues.refused (continues : Continues l l') (refused : Refused l) : Refused l' := by
  obtain ⟨more, journal, -⟩ := continues.journal
  obtain ⟨i, member⟩ := refused
  exact ⟨i, by rw [journal]; exact List.mem_append_left _ member⟩

theorem Syncs.settles (syncs : Syncs known i d l l') (filed : Filed urls l.state.documents)
    (opened : d ∈ l.state.documents.opened) :
    Refused l' ∨
      (d.uri ∈ l'.state.documents.synced ↔ Wants l.state.store l.state.failures d) := by
  cases syncs with
  | same agrees => exact .inr agrees.symm
  | opened wanted unmarked _ brings =>
    refine .inr (iff_of_true ?_ wanted)
    rw [brings.documents, (filed.mark opened unmarked).1]
    exact List.mem_cons_self
  | refused _ _ closed => exact .inl ⟨i, closed⟩
  | closed unwanted _ _ brings =>
    refine .inr (iff_of_false ?_ unwanted)
    rw [brings.documents, Documents.mem_unmark]
    exact fun member => member.2 rfl
  | dropped _ _ closed => exact .inl ⟨i, closed⟩

end Document

section Each

variable {known : σ → Prop} {urls : Set Url} {i : Nat} {l l' l'' : Life σ}

omit [Host σ] in
theorem Marks.trans {uris uris' : Set Url} (first : Marks known uris l l')
    (next : Marks known uris' l' l'') : Marks known (uris ∪ uris') l l'' where
  toContinues := first.toContinues.trans next.toContinues
  server := next.server.trans first.server
  failures := next.failures.trans first.failures
  opened := next.opened.trans first.opened
  store := next.store ∘ first.store
  others uri other := by
    rw [Set.mem_union, not_or] at other
    exact (next.others uri other.2).trans (first.others uri other.1)

/-- A store in which a gate decides as in another one. -/
def Sees (gate store : σ) : Prop :=
  ∀ failures d, Wants store failures d ↔ Wants gate failures d

theorem ensures_syncEach (gate : σ) (apart : Set.InjOn Url.text urls) (regular : Regular urls l)
    (runs : l.state.client.server = some i) {ds : List OpenDocument}
    (opened : ∀ d ∈ ds, d ∈ l.state.documents.opened)
    (distinct : ds.Pairwise (·.uri ≠ ·.uri)) :
    (syncEach i ds).Ensures watch (amidst known) (fun _ l' =>
      Steps urls l l' ∧ Marks known {uri | ∃ d ∈ ds, d.uri = uri} l l' ∧
        ((∀ store, known store → Sees gate store) → known l.state.store → Refused l' ∨
          ∀ d ∈ ds, (d.uri ∈ l'.state.documents.synced ↔ Wants gate l.state.failures d))) l := by
  induction ds generalizing l with
  | nil => exact ⟨.refl, ⟨.refl l, rfl, rfl, rfl, id, fun _ _ => Iff.rfl⟩, fun _ _ => .inr nofun⟩
  | cons d rest ih =>
    obtain ⟨other, distinct⟩ := List.pairwise_cons.mp distinct
    have first : d ∈ l.state.documents.opened := opened d List.mem_cons_self
    rw [syncEach, Program.ensures_bind]
    refine (ensures_syncDocument regular.filed first (regular.exists_ i runs)).mono fun _ l₁ syncs => ?_
    have steps : Steps urls l l₁ := syncs.steps runs first
    have marks := syncs.marks regular.filed first
    refine (ih (regular.steps apart steps) (marks.server.trans runs) (fun e member => ?_) distinct).mono ?_
    · rw [marks.opened]
      exact opened e (List.mem_cons_of_mem d member)
    rintro _ l' ⟨steps', marks', agrees⟩
    refine ⟨steps.trans steps', ?_, fun sees knows => ?_⟩
    · have both : {uri | ∃ e ∈ d :: rest, e.uri = uri} = {d.uri} ∪ {uri | ∃ e ∈ rest, e.uri = uri} := by
        ext uri
        simp [eq_comm]
      rw [both]
      exact marks.trans marks'
    · rcases syncs.settles regular.filed first with refused | settled
      · exact .inl (steps'.continues.refused refused)
      rcases agrees sees (marks.store knows) with refused | agrees
      · exact .inl refused
      refine .inr fun e member => ?_
      rcases List.mem_cons.mp member with rfl | later
      -- The store may change while later documents are looked at, but not for the gate.
      · rw [← sees _ knows, ← settled]
        exact marks'.others e.uri fun ⟨e', member', same⟩ => other e' member' same.symm
      · rw [← marks.failures]
        exact agrees e later

/-- The server of a client knows the open documents that it should know, and no others. -/
def Agrees (gate : σ) (l : Life σ) : Prop :=
  ∀ d ∈ l.state.documents.opened,
    d.uri ∈ l.state.documents.synced ↔ Wants gate l.state.failures d

omit [Host σ] in
theorem ensures_withServer {f : Nat → Task σ Unit} {post : Unit → Life σ → Prop}
    (running : ∀ i, l.state.client.server = some i → (f i).Ensures watch (amidst known) post l)
    (without : l.state.client.server = none → post () l) :
    (withServer f).Ensures watch (amidst known) post l := by
  rw [withServer, server, Program.ensures_bind, Program.ensures_bind, Program.ensures_get,
    Program.ensures_pure]
  cases runs : l.state.client.server with
  | none => exact without runs
  | some i => exact running i runs

theorem ensures_syncDocuments (gate : σ) (apart : Set.InjOn Url.text urls) (regular : Regular urls l) :
    syncDocuments.Ensures watch (amidst known) (fun _ l' =>
      Steps urls l l' ∧ Marks known {uri | ∃ d ∈ l.state.documents.opened, d.uri = uri} l l' ∧
        (l.state.client.server = none → l' = l) ∧
        ((∀ store, known store → Sees gate store) → known l.state.store →
          l.state.client.server ≠ none → Refused l' ∨ Agrees gate l')) l := by
  refine ensures_withServer (fun i runs => ?_) fun none => ?_
  · rw [Program.ensures_bind, Program.ensures_get]
    have distinct : l.state.documents.opened.Pairwise (·.uri ≠ ·.uri) :=
      regular.filed.sorted.imp fun less same => less.ne (congrArg Url.text same)
    refine (ensures_syncEach gate apart regular runs (fun _ => id) distinct).mono ?_
    rintro _ l' ⟨steps, marks, agrees⟩
    refine ⟨steps, marks, fun none => ?_, fun sees knows _ => ?_⟩
    · rw [runs] at none
      cases none
    · refine (agrees sees knows).imp_right fun agrees d opened => ?_
      rw [marks.opened] at opened
      rw [marks.failures]
      exact agrees d opened
  · exact ⟨.refl, ⟨.refl l, rfl, rfl, rfl, id, fun _ _ => Iff.rfl⟩, fun _ => rfl,
      fun _ _ running => absurd none running⟩

end Each

end LinterClient.Session
