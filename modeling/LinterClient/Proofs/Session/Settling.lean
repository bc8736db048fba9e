import LinterClient.Proofs.Session.Conduct

/-!
Requests that wait no more.

An id is given away once. Whatever the tasks of a client do, a request that no longer waits for a response
never waits again.
-/

namespace LinterClient.Session

open Program (Always)

variable {σ α : Type} {i n : Nat}

def Settled (i n : Nat) (s : Session σ) : Prop :=
  ∃ c, s.connection? i = some c ∧ n < c.nextId ∧ n ∉ c.pending

theorem Settled.change {j : Nat} {f : Connection → Connection} {s : Session σ}
    (ages : ∀ c : Connection, c.Ages (f c)) (settled : Settled i n s) :
    Settled i n (changeConnection j f s) := by
  obtain ⟨c, found, given, settled⟩ := settled
  rw [Settled, connection?_changeConnection]
  split
  · exact ⟨f c, by rw [found]; rfl, Nat.lt_of_lt_of_le given (ages c).nextId,
      fun waiting => settled ((ages c).fewer n given waiting)⟩
  · exact ⟨c, found, given, settled⟩

theorem settled_allows : AllowsUse fun s s' : Session σ => Settled i n s → Settled i n s' where
  trans first next settled := next (first settled)
  own connections _ settled := by
    rw [Settled, connection?, connections]
    exact settled
  change := .change

/-- Whatever a task finds, it makes no settled request wait. -/
def NeverRevives (i n : Nat) (post : α → Prop) (task : Task σ α) : Prop :=
  Always (fun s s' => Settled i n s → Settled i n s') Job.IsAside post task

namespace NeverRevives

theorem connect (requestTimeout : Nat) (process : ServerProcess) :
    NeverRevives i n (fun _ => True) (Session.connect requestTimeout process : Task σ Nat) := by
  refine .bind (.modifyGet fun s settled => ?_) fun _ => .bind (.start nofun) fun _ =>
    .bind (.start nofun) fun _ => .done trivial
  obtain ⟨c, found, rest⟩ := settled
  have within : i < s.connections.length := (List.getElem?_eq_some_iff.mp found).1
  exact ⟨c, (List.getElem?_append_left within).trans found, rest⟩

section Host

variable [Host σ]

theorem attach : NeverRevives i n (fun _ => True) (Session.attach : Task σ (Except ClientError Unit)) :=
  .bind (connect _ _) fun _ => settled_allows.useConnection

theorem start : NeverRevives i n (fun _ => True) (Session.start : Task σ (Except ClientError Unit)) := by
  refine .bind .get fun s => ?_
  split
  · exact .done trivial
  · split
    · exact .done trivial
    · exact .bind (connect _ _) fun _ => settled_allows.useConnection

end Host

end NeverRevives

/-- No task of a system makes a settled request wait, nor do the jobs that it starts. -/
def StaysSettled (i n : Nat) (system : System (Session σ) Wait Job) : Prop :=
  system.Behaves (fun s s' => Settled i n s → Settled i n s') Job.IsAside

theorem StaysSettled.step [Host σ] {before after : System (Session σ) Wait Job}
    (stays : StaysSettled i n before) (steps : System.Steps rules before after) :
    (Settled i n before.state → Settled i n after.state) ∧ StaysSettled i n after := by
  have jobs (job : Job) (aside : job.IsAside) : NeverRevives i n (fun next => ∀ job ∈ next, job.IsAside)
      ((rules : Rules (Session σ) Wait Job).run job) :=
    settled_allows.jobs.runJob aside
  exact System.Behaves.step (fun _ settled => settled) (fun first next settled => next (first settled))
    jobs stays steps

end LinterClient.Session
