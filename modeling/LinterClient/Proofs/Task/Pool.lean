import Mathlib.Logic.Hydra
import Mathlib.Tactic.Abel
import LinterClient.Proofs.Task.Bystanders
import LinterClient.Proofs.Task.Crew
import LinterClient.Proofs.Task.Goes

/-!
The tasks of a system as a pool.

One task goes on while the others stay, and their order is of no account. Each go brings a task to a
later place of its program, so tasks that start only tasks of a lower rank cannot go on forever.
-/

namespace LinterClient

open Relation (CutExpand)

variable {State Wait Job α β : Type}

namespace Program

/-- A whole waits where its first part waits. -/
theorem advance_bind_of_waits {p : Program State Wait Job α} {on : Wait} {next : Program State Wait Job α}
    (f : α → Program State Wait Job β) {s : State} (waits : (p.advance s).1.program = .wait on next) :
    (p >>= f).advance s = (.waiting on (next >>= f), (p.advance s).2) := by
  rw [advance_bind]
  generalize p.advance s = first at waits
  obtain ⟨pause, s', jobs⟩ := first
  cases pause with
  | done a => cases waits
  | waiting on next =>
    cases waits
    exact congrArg (fun jobs => (_, _, jobs)) (List.append_nil jobs)

/-- The places at which a program may stop next. -/
def Later (p' p : Program State Wait Job α) : Prop :=
  (∀ a, p ≠ .done a) ∧ ∃ s, p' = ((System.resume p).advance s).1.program

theorem wellFounded_later : WellFounded (Later : Program State Wait Job α → _ → Prop) := by
  have stops (p : Program State Wait Job α) (s : State) : Acc Later (p.advance s).1.program := by
    refine stop_induction (motive := Acc Later) (fun a => ?_) (fun on next ih => ?_) p s
    · exact ⟨_, fun _ later => absurd rfl (later.1 a)⟩
    · refine ⟨_, fun p' later => ?_⟩
      obtain ⟨-, s, rfl⟩ := later
      exact ih s
  refine ⟨fun p => ⟨p, fun p' later => ?_⟩⟩
  obtain ⟨-, s, rfl⟩ := later
  exact stops _ s

/-- Tasks with ranks: each may be followed by a later place of its own, and by any task of a lower
rank. -/
def Sooner : Bool × Program State Wait Job α → Bool × Program State Wait Job α → Prop :=
  Prod.Lex (· < ·) Later

theorem wellFounded_sooner : WellFounded (Sooner : Bool × Program State Wait Job α → _ → Prop) :=
  WellFounded.prod_lex wellFounded_lt wellFounded_later

end Program

namespace System

variable {r : Rules State Wait Job} {sys sys' : System State Wait Job}
variable {p : Program State Wait Job (Option Job)}

/-- A task goes on, and the others stay. -/
structure Goes (r : Rules State Wait Job) (p : Program State Wait Job (Option Job))
    (sys sys' : System State Wait Job) : Prop where
  enabled : enabled r sys.state p = true
  state : sys'.state = ((resume p).advance sys.state).2.1
  tasks : ∃ rest : Multiset (Program State Wait Job (Option Job)),
    (sys.tasks : Multiset _) = p ::ₘ rest ∧
      (sys'.tasks : Multiset _) = (remaining r ((resume p).advance sys.state).1 : Multiset _) +
        (((resume p).advance sys.state).2.2.map r.run : Multiset _) + rest

theorem Goes.tasks_of (goes : Goes r p sys sys') {rest : Multiset (Program State Wait Job (Option Job))}
    (tasks : (sys.tasks : Multiset _) = p ::ₘ rest) :
    (sys'.tasks : Multiset _) = (remaining r ((resume p).advance sys.state).1 : Multiset _) +
      (((resume p).advance sys.state).2.2.map r.run : Multiset _) + rest := by
  obtain ⟨others, before, after⟩ := goes.tasks
  obtain rfl : others = rest := (Multiset.cons_inj_right p).mp (before.symm.trans tasks)
  exact after

theorem goes_of_step {i : Nat} (task : sys.tasks[i]? = some p) (enabled : enabled r sys.state p = true) :
    ∃ after, sys.step r i = some after ∧ Goes r p sys after := by
  obtain ⟨within, here⟩ := List.getElem?_eq_some_iff.mp task
  have split : sys.tasks = sys.tasks.take i ++ p :: sys.tasks.drop (i + 1) := by
    conv_lhs => rw [← List.take_append_drop i sys.tasks, List.drop_eq_getElem_cons within, here]
  refine ⟨_, by rw [step, task]; exact if_pos enabled, enabled, rfl,
    (sys.tasks.take i ++ sys.tasks.drop (i + 1) : List _), ?_, ?_⟩
  · conv_lhs => rw [split]
    exact Multiset.coe_eq_coe.mpr List.perm_middle
  · simp only [← Multiset.coe_add]
    abel

theorem Steps.goes (steps : Steps r sys sys') : ∃ p, Goes r p sys sys' := by
  obtain ⟨i, stepped⟩ := steps
  have whole := stepped
  rw [step] at stepped
  split at stepped
  · cases stepped
  rename_i p task
  split at stepped
  rotate_left
  · cases stepped
  rename_i enabled
  obtain ⟨after, same, goes⟩ := goes_of_step task enabled
  cases same.symm.trans whole
  exact ⟨p, goes⟩

theorem steps_of_mem (task : p ∈ sys.tasks) (enabled : enabled r sys.state p = true) :
    ∃ sys', Steps r sys sys' ∧ Goes r p sys sys' := by
  obtain ⟨i, task⟩ := List.mem_iff_getElem?.mp task
  obtain ⟨after, stepped, goes⟩ := goes_of_step task enabled
  exact ⟨after, ⟨i, stepped⟩, goes⟩

variable {may : State → State → Prop} {low : Job → Prop}
variable {o : Bool × Program State Wait Job (Option Job)}

/-- A task that does what it may and then ends. Only one of the higher rank starts others, of the lower
one. -/
def Passing (may : State → State → Prop) (low : Job → Prop)
    (o : Bool × Program State Wait Job (Option Job)) : Prop :=
  Program.Always may (fun job => o.1 = true ∧ low job) (· = none) o.2

theorem Passing.goes (refl : ∀ s, may s s) (trans : ∀ {s s' s''}, may s s' → may s' s'' → may s s'')
    (jobs : ∀ job, low job → Passing may low (false, r.run job)) (passing : Passing may low o) (s : State) :
    let stop := (resume o.2).advance s
    may s stop.2.1 ∧ ∃ more : Multiset (Bool × Program State Wait Job (Option Job)),
      more.map Prod.snd = (remaining r stop.1 : Multiset _) + (stop.2.2.map r.run : Multiset _) ∧
        ∀ o' ∈ more, Program.Sooner o' o ∧ Passing may low o' := by
  obtain ⟨rank, p⟩ := o
  obtain ⟨changed, started, rest⟩ := (Program.Always.resume passing s).advance refl trans
  generalize went : (resume p).advance s = stop at changed started rest
  obtain ⟨pause, s', new⟩ := stop
  dsimp only at changed started rest
  let others : Multiset (Bool × Program State Wait Job (Option Job)) :=
    ↑(new.map fun job => (false, r.run job))
  have below : ∀ o' ∈ others, Program.Sooner o' (rank, p) ∧ Passing may low o' := by
    intro o' member
    obtain ⟨job, listed, rfl⟩ := List.mem_map.mp (Multiset.mem_coe.mp member)
    obtain ⟨rfl, isLow⟩ := started job listed
    exact ⟨.left _ _ rfl, jobs job isLow⟩
  have ran : others.map Prod.snd = ↑(new.map r.run) := by
    rw [Multiset.map_coe, List.map_map]
    rfl
  cases pause with
  | done a =>
    obtain rfl : a = none := rest
    exact ⟨changed, _, by simpa [remaining] using ran, below⟩
  | waiting on next =>
    refine ⟨changed, (rank, .wait on next) ::ₘ others, ?_, Multiset.forall_mem_cons.mpr ⟨⟨?_, ?_⟩, below⟩⟩
    · rw [Multiset.map_cons, ran]
      rfl
    · refine .right _ ⟨fun a is => ?_, s, by rw [went]; rfl⟩
      rw [is] at went
      cases went
    · exact fun _ => rest

end System

end LinterClient
