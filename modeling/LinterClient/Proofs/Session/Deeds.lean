import LinterClient.Proofs.Session.Handling
import LinterClient.Store.Memory

/-!
Runs of a client.

A run is a list of operations in the order in which they are called. Others act while an operation waits
and before the next one; what they do is left open, within what is relied on.
-/

namespace LinterClient.Session

variable {σ : Type} [Host σ]

/-- What a client is called for. The last one is to do a piece of work: a command that was handed to the
client, or an event of its server. -/
inductive Operation where
  | opened (d : OpenDocument)
  | closed (uri : Url)
  | attach
  | start
  | stop
  | execute (c : Command) (active : Option Url)
  | filesChanged (changes : List Protocol.FileEvent)
  | work

def Operation.task : Operation → Task σ Unit
  | .opened d => didOpen d
  | .closed uri => didClose uri
  | .attach => do let _ ← Session.attach
  | .start => do let _ ← Session.start
  | .stop => Session.stop
  | .execute c active => do let _ ← Session.execute c active
  | .filesChanged changes => watchedFilesChanged changes
  | .work => do let _ ← handleQueued

/-- An operation, what others do in its waits, which are counted, and what they do after it. Others may hold a
command back and hand it over at any time, so an event may be handled before a command that came first. -/
structure Deed (σ : Type) where
  operation : Operation
  during : Nat → Session σ → Session σ
  after : Session σ → Session σ

namespace Life

def follow (l : Life σ) (deed : Deed σ) : Life σ :=
  let ended := deed.operation.task.chronicle watch deed.during l
  ⟨deed.after ended.state, ended.journal⟩

def after (l : Life σ) (deeds : List (Deed σ)) : Life σ :=
  deeds.foldl follow l

/-- Something is so of each deed of a run, where it starts. -/
def Throughout (P : Deed σ → Life σ → Prop) (l : Life σ) : List (Deed σ) → Prop
  | [] => True
  | deed :: rest => P deed l ∧ Throughout P (l.follow deed) rest

end Life

/-- What is relied on: servers are only connected to while none is in use, documents have URLs of a set,
and others leave alone what is the client's own. Something may be known of every store that is found. -/
structure Deed.Orderly (urls : Set Url) (known : σ → Prop) (deed : Deed σ) (l : Life σ) : Prop where
  free : deed.operation = .attach ∨ deed.operation = .start → l.state.client.server = none
  named : ∀ d, deed.operation = .opened d → d.uri ∈ urls
  store : known l.state.store
  turns : ∀ t ∈ (deed.operation.task.amid deed.during l.state).turns, amidst known t.on t.left t.found
  rests : Beside (deed.operation.task.amid deed.during l.state).final
    (deed.after (deed.operation.task.amid deed.during l.state).final)

/-- The document of a URL that the server knows is replaced, and the server is told nothing. -/
def Deed.Replaces (deed : Deed σ) (uri : Url) (l : Life σ) : Prop :=
  ∃ d, deed.operation = .opened d ∧ d.uri = uri ∧ Reopens l d

/-- What the agreement of marks and gate after an operation depends on. -/
def Operation.Relies (gate : σ) (l : Life σ) : Operation → Prop
  | .attach | .start | .stop | .execute .restart _ => True
  | .filesChanged _ => Follows gate l ∧ ¬ Revived gate l
  | .work => SettlesNext gate l
  | _ => Follows gate l

section Deeds

variable {urls : Set Url} {known : σ → Prop} {gate : σ} {l l' : Life σ} {deed : Deed σ}
variable {deeds : List (Deed σ)} {d : OpenDocument}

theorem Does.discard {α : Type} {before : Prop} {task : Task σ α}
    (does : Does urls known gate before task l) :
    Does urls known gate before (do let _ ← task) l := by
  rw [Does, Program.ensures_bind]
  exact Program.Ensures.mono does fun _ _ result => result

theorem does_operation (apart : Set.InjOn Url.text urls) (sound : Sound urls l) {operation : Operation}
    (free : operation = .attach ∨ operation = .start → l.state.client.server = none)
    (named : ∀ d, operation = .opened d → d.uri ∈ urls)
    (once : ∀ d, operation = .opened d → ¬ Reopens l d) :
    Does urls known gate (operation.Relies gate l) operation.task l := by
  cases operation with
  | opened d => exact does_didOpen apart sound (named d rfl) (once d rfl)
  | closed uri => exact does_didClose sound uri
  | attach => exact (does_attach apart sound (free (.inl rfl))).discard
  | start => exact (does_start apart sound (free (.inr rfl))).discard
  | stop => exact ensures_stop.mono fun _ _ ended => ended.result
  | execute c active =>
    cases c with
    | restart => exact (does_restart apart sound active).discard
    | _ => exact (does_execute apart sound _ active).discard
  | filesChanged changes => exact does_watchedFilesChanged sound changes
  | work => exact (does_handleQueued apart sound).discard

omit [Host σ] in
theorem Tacit.of_beside {s : Session σ} (beside : Beside l.state s) :
    Tacit (fun _ => True) l ⟨s, l.journal⟩ where
  length := Nat.le_of_eq beside.length.symm
  closed i _ := beside.closed i
  journal := ⟨[], (List.append_nil _).symm, nofun, .nil⟩
  server := congrArg Client.server beside.client
  documents := beside.documents
  failures := beside.failures
  store := id
  tells := (List.append_nil _).symm

theorem Deed.Orderly.ensures {post : Life σ → Prop} (orderly : deed.Orderly urls known l)
    (ensures : deed.operation.task.Ensures watch (amidst known) (fun _ => post) l) :
    ∃ l₁, post l₁ ∧ Tacit (fun _ => True) l₁ (l.follow deed) := by
  have rests := orderly.rests
  rw [← Program.chronicle_state watch] at rests
  exact ⟨_, ensures.chronicle deed.during orderly.turns, .of_beside rests⟩

theorem Deed.Orderly.result (apart : Set.InjOn Url.text urls) (sound : Sound urls l)
    (orderly : deed.Orderly urls known l) (once : ∀ d, deed.operation = .opened d → ¬ Reopens l d) :
    Result urls known gate (deed.operation.Relies gate l) l (l.follow deed) := by
  have does : Does urls known gate (deed.operation.Relies gate l) deed.operation.task l :=
    does_operation apart sound orderly.free orderly.named once
  obtain ⟨l₁, result, quiet⟩ := orderly.ensures does
  exact result.quiet quiet

theorem Deed.Orderly.reopened (apart : Set.InjOn Url.text urls) (sound : Sound urls l)
    (orderly : deed.Orderly urls known l) (opens : deed.operation = .opened d) (reopens : Reopens l d) :
    Tacit (fun _ => True) (refile (l.state.documents.insert d) l) (l.follow deed) := by
  have ensures : deed.operation.task.Ensures watch (amidst known)
      (fun _ l' => l' = refile (l.state.documents.insert d) l) l := by
    rw [opens]
    exact ensures_reopen sound apart (orderly.named d opens) reopens
  obtain ⟨_, rfl, quiet⟩ := orderly.ensures ensures
  exact quiet

omit [Host σ] in
theorem Sound.insert (apart : Set.InjOn Url.text urls) (sound : Sound urls l) (named : d.uri ∈ urls) :
    Sound urls (refile (l.state.documents.insert d) l) :=
  ⟨⟨sound.filed.insert apart named, sound.exists_, sound.fresh⟩, sound.vacant⟩

theorem Sound.follow (apart : Set.InjOn Url.text urls) (sound : Sound urls l)
    (orderly : deed.Orderly urls known l) : Sound urls (l.follow deed) := by
  by_cases reopens : ∃ d, deed.operation = .opened d ∧ Reopens l d
  · obtain ⟨d, opens, reopens⟩ := reopens
    exact (sound.insert apart (orderly.named d opens)).quiet apart
      (orderly.reopened apart sound opens reopens)
  · have result : Result urls known l.state.store (deed.operation.Relies l.state.store l) l
        (l.follow deed) :=
      orderly.result apart sound fun d opens again => reopens ⟨d, opens, again⟩
    exact ⟨sound.toRegular.steps apart result.steps, result.vacant⟩

/-- What each step keeps, and each replacement of a document, every deed keeps. -/
theorem Deed.Orderly.keeps {P : Life σ → Prop} (apart : Set.InjOn Url.text urls) (sound : Sound urls l)
    (orderly : deed.Orderly urls known l)
    (step : ∀ l l', Regular urls l → Step urls l l' → P l → P l')
    (replace : ∀ d, Reopens l d → deed.operation = .opened d → P l →
      P (refile (l.state.documents.insert d) l)) (holds : P l) : P (l.follow deed) := by
  have steps {l l' : Life σ} (regular : Regular urls l) (steps : Steps urls l l') (holds : P l) : P l' := by
    induction steps with
    | refl => exact holds
    | tail before last ih => exact step _ _ (regular.steps apart before) last ih
  by_cases reopens : ∃ d, deed.operation = .opened d ∧ Reopens l d
  · obtain ⟨d, opens, reopens⟩ := reopens
    have sound₁ := sound.insert apart (orderly.named d opens)
    exact steps sound₁.toRegular (orderly.reopened apart sound opens reopens).step
      (replace d reopens opens holds)
  · have result : Result urls known l.state.store (deed.operation.Relies l.state.store l) l
        (l.follow deed) :=
      orderly.result apart sound fun d opens again => reopens ⟨d, opens, again⟩
    exact steps sound.toRegular result.steps holds

theorem sound_new (store : σ) (memento : Memento) (launch : Option Launch)
    (canLaunch : Launch → Except LaunchError Unit) (processId : Nat) :
    Sound urls ⟨.new store memento launch canLaunch processId, []⟩ where
  filed := Documents.filed_empty
  exists_ := nofun
  fresh := nofun
  vacant _ := rfl

theorem throughout_of_forall {P : Deed σ → Life σ → Prop} (always : ∀ deed l, P deed l) :
    l.Throughout P deeds := by
  induction deeds generalizing l with
  | nil => trivial
  | cons deed rest ih => exact ⟨always deed l, ih⟩

theorem Sound.after {P : Life σ → Prop} {Q : Deed σ → Life σ → Prop} (apart : Set.InjOn Url.text urls)
    (sound : Sound urls l) (orderly : l.Throughout (Deed.Orderly urls known) deeds)
    (allowed : l.Throughout Q deeds)
    (keeps : ∀ l deed, Sound urls l → deed.Orderly urls known l → Q deed l → P l → P (l.follow deed))
    (holds : P l) : Sound urls (l.after deeds) ∧ P (l.after deeds) := by
  induction deeds generalizing l with
  | nil => exact ⟨sound, holds⟩
  | cons deed rest ih =>
    obtain ⟨first, orderly⟩ := orderly
    obtain ⟨here, allowed⟩ := allowed
    exact ih (sound.follow apart first) orderly allowed (keeps l deed sound first here holds)

/-- A piece of work, in the waits of which others act; after it they do not. -/
def working (during : Nat → Session σ → Session σ) : Deed σ :=
  ⟨.work, during, id⟩

theorem follow_working (others : Nat → Session σ → Session σ) (l : Life σ) :
    l.follow (working others) = handleQueued.chronicle watch others l :=
  Program.chronicle_bind watch others handleQueued (fun _ => pure ()) l

theorem orderly_working {others : Nat → Session σ → Session σ} (store : known l.state.store)
    (relied : ∀ t ∈ (handleQueued.amid others l.state).turns, amidst known t.on t.left t.found) :
    (working others).Orderly urls known l := by
  refine ⟨nofun, nofun, store, fun t member => relied t ?_, .refl _⟩
  have discards : (Operation.work.task.amid others l.state).turns =
      (handleQueued.amid others l.state).turns ++ [] :=
    congrArg Program.Course.turns (Program.amid_bind others handleQueued (fun _ => pure ()) l.state)
  rw [List.append_nil] at discards
  exact discards ▸ member

/-- To do all work that is there is to do one piece after the other. -/
theorem processPending_run (limit : Nat) (others : Nat → Session σ → Session σ) (l : Life σ)
    (relied : ∀ t ∈ ((processPending limit).amid others l.state).turns,
      amidst (fun _ => True) t.on t.left t.found) :
    ∃ works : List (Deed σ), (∀ deed ∈ works, deed.operation = .work) ∧
      l.Throughout (Deed.Orderly urls fun _ => True) works ∧
        l.after works = (processPending limit).chronicle watch others l := by
  induction limit generalizing others l with
  | zero => exact ⟨[], nofun, trivial, rfl⟩
  | succ limit ih =>
    rw [processPending, Program.amid_bind] at relied
    rw [processPending, Program.chronicle_bind, ← follow_working]
    have first : (working others).Orderly urls (fun _ => True) l :=
      orderly_working trivial fun t member => relied t (List.mem_append_left _ member)
    have state : (l.follow (working others)).state = (handleQueued.amid others l.state).final := by
      rw [follow_working, Program.chronicle_state]
    dsimp only at relied ⊢
    revert relied
    cases (handleQueued.amid others l.state).value with
    | false =>
      intro _
      refine ⟨[working others], ?_, ⟨first, trivial⟩, rfl⟩
      simp [working]
    | true =>
      intro relied
      -- In the other pieces of work the waits are counted on from those of the first one.
      obtain ⟨works, all, orderly, ends⟩ := ih
        (fun n => others (n + (handleQueued.amid others l.state).turns.length))
        (l.follow (working others)) fun t member => by
          rw [state] at member
          refine relied t (List.mem_append_right _ ?_)
          rw [if_pos rfl, Program.amid_bind]
          exact List.mem_append_left _ member
      refine ⟨working others :: works, ?_, ⟨first, orderly⟩, ?_⟩
      · intro deed member
        rcases List.mem_cons.mp member with rfl | later
        · rfl
        · exact all deed later
      · rw [if_pos rfl, Program.chronicle_bind]
        exact ends

/-- Others who at no time do what is not relied on. -/
structure Deed.Polite (deed : Deed σ) : Prop where
  during : ∀ n s, Beside s (deed.during n s)
  after : ∀ s, Beside s (deed.after s)

/-- Whether each wait of a deed is over where the others let it end. -/
def Deed.inTime (deed : Deed σ) (l : Life σ) : Bool :=
  (deed.operation.task.amid deed.during l.state).turns.all fun t => ready t.on t.found

theorem Deed.Polite.orderly (polite : deed.Polite)
    (free : deed.operation = .attach ∨ deed.operation = .start → l.state.client.server = none)
    (named : ∀ d, deed.operation = .opened d → d.uri ∈ urls) (store : known l.state.store)
    (inTime : deed.inTime l = true)
    (knows : ∀ t ∈ (deed.operation.task.amid deed.during l.state).turns, known t.found.store) :
    deed.Orderly urls known l where
  free := free
  named := named
  store := store
  turns t member := by
    obtain ⟨n, found⟩ := Program.found_of_mem_turns member
    exact ⟨found ▸ polite.during n t.left, List.all_eq_true.mp inTime t member, knows t member⟩
  rests := polite.after _

end Deeds

/-- A store in memory, on a machine without files. -/
instance : Host MemoryStore where
  readText _ _ := .error .notFound
  saveMemento s _ := (.ok (), s)

def emptyStore : MemoryStore := .new ⟨[], none⟩

def emptyLife : Life MemoryStore :=
  ⟨.new emptyStore .inMemory none (fun _ => .error .noLaunch) 0, []⟩

def scriptUrl : Url := ⟨"file", some ⟨"", .empty, none⟩, "/a.js", none, none⟩

def script : OpenDocument := ⟨⟨scriptUrl, "javascript"⟩, "let a", 1⟩

def alone (operation : Operation) : Deed MemoryStore :=
  ⟨operation, fun _ s => s, fun s => s⟩

/-- A server that answers the first request on its connection at once. -/
def answering (connection : Nat) : Deed MemoryStore where
  operation := .attach
  during n s :=
    if n = 1 then changeConnection connection (·.deliver 1 [("result", .obj [])]) s else s
  after s := s

theorem polite_alone (operation : Operation) : (alone operation).Polite :=
  ⟨fun _ => .refl, .refl⟩

theorem polite_answering (connection : Nat) : (answering connection).Polite := by
  refine ⟨fun n s => ?_, .refl⟩
  show Beside s (if n = 1 then _ else s)
  split
  · have still : Still s (changeConnection connection (·.deliver 1 [("result", .obj [])]) s) := by
      refine (idle_changeConnection fun c _ => ?_).toStill
      unfold Connection.deliver
      split <;> exact ⟨rfl, rfl⟩
    exact .of_still still rfl rfl rfl
  · exact .refl s

end LinterClient.Session
