import LinterClient.Proofs.Session.Conduct

/-!
What the jobs of a client do beside its own task.

Whatever is asked of them, the jobs that write, read, answer and announce leave documents, failed probes
and what the client keeps alone, and tell no server of documents.
-/

namespace LinterClient.Session

variable {σ α : Type}

section Connections

variable {i : Nat} {s : Session σ}

theorem beside_changeConnection {f : Connection → Connection}
    (closes : ∀ c, (f c).writing = true → c.writing = true)
    (drops : ∀ c, (f c).outbox.filterMap telling? <:+ c.outbox.filterMap telling?) :
    Beside s (changeConnection i f s) where
  documents := rfl
  failures := rfl
  client := rfl
  length := List.length_modify _ _ _
  closed j := by
    rw [isConnected, isConnected, connection?_changeConnection]
    split
    · cases s.connection? j with
      | none => exact id
      | some c => exact closes c
    · exact id
  silent j := by
    rw [tellings, tellings, outbox, outbox, connection?_changeConnection]
    split
    · cases s.connection? j with
      | none => exact List.suffix_refl _
      | some c => exact drops c
    · exact List.suffix_refl _

theorem beside_onConnection (default : α) {f : Connection → α × Connection}
    (closes : ∀ c, (f c).2.writing = true → c.writing = true)
    (drops : ∀ c, (f c).2.outbox.filterMap telling? <:+ c.outbox.filterMap telling?) :
    Beside s (onConnection i default f s).2 := by
  rw [onConnection_snd]
  exact beside_changeConnection closes drops

/-- What is sent was put in the outbox before; a closed connection sends nothing. -/
theorem beside_writeNext : Beside s (onConnection i false (·.writeNext) s).2 := by
  refine beside_onConnection false (fun c => ?_) fun c => ?_
  · unfold Connection.writeNext
    split
    · exact id
    · exact nofun
    · split
      · exact nofun
      · exact id
  · unfold Connection.writeNext
    split
    · exact List.suffix_refl _
    · exact List.nil_suffix
    · rename_i message rest waiting
      split
      · exact List.nil_suffix
      · rw [waiting]
        exact (List.suffix_cons (.frame message) rest).filterMap telling?

theorem beside_enqueue {o : Outgoing} (silent : telling? o = none) :
    Beside s (onConnection i false (·.enqueue o) s).2 := by
  refine beside_onConnection false (fun c => ?_) fun c => ?_
  · unfold Connection.enqueue
    split
    · exact id
    · exact id
  · unfold Connection.enqueue
    split
    · have same : (c.outbox ++ [o]).filterMap telling? = c.outbox.filterMap telling? := by
        rw [List.filterMap_append, List.filterMap_cons_none silent]
        exact List.append_nil _
      exact same ▸ List.suffix_refl _
    · exact List.suffix_refl _

theorem told?_response (id : Json) (result : Except Protocol.Error Json) :
    told? (Protocol.response id result) = none := by
  have method : (Protocol.response id result).get? "method" = none := by
    cases result with
    | ok result => exact Json.get?_ofMembers _ _
    | error e => exact Json.get?_ofMembers _ _
  rw [told?, method]
  rfl

end Connections

theorem beside_heeds {i : Nat} {s : Session σ} {f : Connection → Connection}
    (heeds : ∀ c : Connection, c.Heeds (f c)) : Beside s (changeConnection i f s) :=
  beside_changeConnection (fun c writing => (heeds c).writing ▸ writing)
    fun c => (heeds c).outbox ▸ List.suffix_refl _

theorem beside_allows : AllowsJobs (Beside : Session σ → Session σ → Prop) where
  spares := .of_spares
  writes _ _ := beside_writeNext
  responds _ _ _ _ := beside_enqueue (told?_response _ _)
  heeds := beside_heeds

/-- Whatever a task finds, it only does what is done beside the client's own. -/
def Bystands (post : α → Prop) (task : Task σ α) : Prop :=
  ∀ s, task.Behaves Beside Job.IsAside post s

theorem Bystands.runJob [Host σ] {job : Job} (aside : job.IsAside) :
    Bystands (fun next => ∀ job ∈ next, job.IsAside) (runJob handle job : Task σ (Option Job)) :=
  beside_allows.runJob aside

/-- In every schedule of the jobs of a client, without its own task, all that happens is what may happen
beside that task. -/
theorem jobs_beside [Host σ] {before after : System (Session σ) Wait Job}
    (aside : before.Behaves Beside Job.IsAside)
    (steps : Relation.ReflTransGen (System.Steps rules) before after) :
    Beside before.state after.state ∧ after.Behaves Beside Job.IsAside :=
  aside.steps .refl .trans (fun _ aside s => Bystands.runJob aside s) steps

end LinterClient.Session
