import LinterClient.Task.System

/-!
One go of a program that is made of two.

A go of the whole is a go of the first part, unless that part ends: then the second part goes on from
there.
-/

namespace LinterClient.Program

variable {State Wait Job α β γ : Type}

theorem bind_assoc (p : Program State Wait Job α) (f : α → Program State Wait Job β)
    (g : β → Program State Wait Job γ) : (p >>= f) >>= g = p >>= fun a => f a >>= g := by
  show (p.bind f).bind g = p.bind fun a => (f a).bind g
  induction p with
  | done a => rfl
  | read next ih =>
    have same : (fun s => ((next s).bind f).bind g) = fun s => (next s).bind fun a => (f a).bind g :=
      funext ih
    simp only [bind, same]
  | change h next ih => simp only [bind, ih]
  | wait on next ih => simp only [bind, ih]
  | spawn job next ih => simp only [bind, ih]

/-- Where a whole stands after its first part. -/
def Pause.andThen (stop : Pause State Wait Job α) (f : α → Program State Wait Job β) (s : State) :
    Pause State Wait Job β × State × List Job :=
  match stop with
  | .done a => (f a).advance s
  | .waiting on next => (.waiting on (next >>= f), s, [])

theorem advance_bind (p : Program State Wait Job α) (f : α → Program State Wait Job β) (s : State) :
    (p >>= f).advance s =
      let first := p.advance s
      let rest := first.1.andThen f first.2.1
      (rest.1, rest.2.1, first.2.2 ++ rest.2.2) := by
  show (p.bind f).advance s = _
  induction p generalizing s with
  | done a => rfl
  | read next ih => exact ih s s
  | change g next ih => exact ih (g s)
  | wait on next => rfl
  | spawn job next ih =>
    rw [bind, advance, ih s]
    rfl

theorem resume_bind {p : Program State Wait Job α} (f : α → Program State Wait Job β)
    (unfinished : ∀ a, p ≠ .done a) : System.resume (p >>= f) = System.resume p >>= f := by
  cases p with
  | done a => exact absurd rfl (unfinished a)
  | _ => rfl

end LinterClient.Program
