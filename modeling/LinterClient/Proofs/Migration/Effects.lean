import LinterClient.Proofs.Migration.Attempts
import LinterClient.Proofs.Store.Lawful

/-!
What an update leaves in a store that keeps what is written.

While nobody else writes, a key changes in a tier only through the writes that reach it.
-/

namespace LinterClient

open Migration (Change)

namespace Session

open Program (Turn)

variable {σ : Type} [Store σ] {resource : Option Url} {changes : List Change} {s last : Session σ}
variable {turns : List (Turn (Session σ) Wait)}

/-- Nobody else writes to the store while a task waits. -/
def Quiet (turns : List (Turn (Session σ) Wait)) : Prop :=
  ∀ t ∈ turns, t.found.store = t.left.store

omit [Store σ] in
/-- Others that leave the store alone disturb no task. -/
theorem quiet_amid {α : Type} {others : Nat → Session σ → Session σ}
    (keeps : ∀ n s, (others n s).store = s.store) (p : Task σ α) (s : Session σ) :
    Quiet (p.amid others s).turns := by
  induction p generalizing others s with
  | done => simp [Program.amid, Quiet]
  | read next ih => exact ih s keeps s
  | change f next ih => exact ih keeps (f s)
  | wait on next ih =>
    intro t member
    rcases List.mem_cons.mp member with rfl | member
    · exact keeps 0 s
    · exact ih (fun n => keeps (n + 1)) _ t member
  | spawn job next ih => exact ih keeps s

theorem after_store {t : Turn (Session σ) Wait} {w : SettingWrite} (on : t.on = .write w) :
    t.after.store = (Store.write t.found.store w).2 := by
  simp only [Turn.after, on]

theorem result_eq {t : Turn (Session σ) Wait} {w : SettingWrite} (on : t.on = .write w) :
    t.result = (Store.write t.found.store w).1 := by
  simp only [Turn.result, on]

variable [LawfulStore σ]

/-- A turn changes what a key holds only if its write succeeds and reaches the key. -/
theorem inspect_after {t : Turn (Session σ) Wait} {w : SettingWrite} (on : t.on = .write w)
    (key : String) (other : Option Url) (u : Tier)
    (away : t.result = .ok () → ¬ w.Reaches (Store.workspace t.found.store) key other u) :
    (Store.inspect t.after.store key other).get u = (Store.inspect t.found.store key other).get u := by
  rw [result_eq on] at away
  rw [after_store on]
  cases result : (Store.write t.found.store w).1 with
  | ok => exact LawfulStore.inspect_elsewhere _ _ _ _ _ (away result)
  | error e => rw [LawfulStore.inspect_refused _ _ e _ _ result]

theorem Wrote.inspect_untouched (wrote : Wrote resource changes s turns last) (quiet : Quiet turns)
    {key : String} {other : Option Url} {u : Tier}
    (away : ∀ t ∈ turns, ∀ w, t.on = .write w → t.result = .ok () →
      ¬ w.Reaches (Store.workspace s.store) key other u) :
    (Store.inspect last.store key other).get u = (Store.inspect s.store key other).get u := by
  induction turns generalizing changes s with
  | nil => rw [wrote.of_nil.2]
  | cons t turns ih =>
    obtain ⟨c, rest, rfl, attempts, left, later⟩ := wrote.of_cons
    have found : t.found.store = s.store := (quiet t (by simp)).trans (congrArg Session.store left)
    have workspace : Store.workspace t.after.store = Store.workspace s.store := by
      rw [after_store attempts, LawfulStore.workspace_write, found]
    have here := inspect_after attempts key other u (by
      rw [found]
      exact away t (by simp) _ attempts)
    rw [ih later (fun t member => quiet t (by simp [member])) ?_, here, found]
    intro t member w on written
    rw [workspace]
    exact away t (by simp [member]) w on written

/-- A key that is not written in a tier, and that all other writes keep away from, holds what it held. -/
theorem Wrote.inspect_unwritten
    (wrote : Wrote resource changes s turns last) (quiet : Quiet turns) {key : String} {u : Tier}
    (away : ∀ c ∈ changes, c.tier = u → KeyPath.Apart (KeyPath.segments c.key) (KeyPath.segments key)) :
    (Store.inspect last.store key resource).get u = (Store.inspect s.store key resource).get u := by
  refine wrote.inspect_untouched quiet fun t member w on _ => ?_
  obtain ⟨c, listed, attempts⟩ := wrote.attempted member
  rw [Turn.Attempts, on, Wait.write.injEq] at attempts
  rintro ⟨tier, _, meets⟩
  rw [attempts] at tier meets
  exact meets (away c listed tier.symm)

/-- What was written is there at the end, unless a later write reaches it. -/
theorem Wrote.inspect_landed {before later : List (Turn (Session σ) Wait)} {t : Turn (Session σ) Wait}
    (wrote : Wrote resource changes s (before ++ t :: later) last)
    (quiet : Quiet (before ++ t :: later)) {w : SettingWrite} {v : Json} (on : t.on = .write w)
    (written : t.result = .ok ()) (given : w.value = some v) (filled : KeyPath.segments w.key ≠ [])
    (away : ∀ t' ∈ later, ∀ w', t'.on = .write w' → t'.result = .ok () →
      ¬ w'.Reaches (Store.workspace t.after.store) w.key w.resource w.tier) :
    (Store.inspect last.store w.key w.resource).get w.tier = some v := by
  obtain ⟨_, _, middle, _, _, ended⟩ := wrote.of_append
  obtain ⟨_, _, _, _, _, rest⟩ := ended.of_cons
  rw [rest.inspect_untouched (fun t' member => quiet t' (by simp [member])) away, after_store on]
  rw [result_eq on] at written
  exact LawfulStore.inspect_written _ _ _ written given filled

/-- Neither of two changes can disturb the other. -/
def Clear (a b : Change) : Prop :=
  a.tier ≠ b.tier ∨ KeyPath.Apart (KeyPath.segments a.key) (KeyPath.segments b.key)

theorem Clear.symm {a b : Change} (clear : Clear a b) : Clear b a :=
  clear.imp Ne.symm KeyPath.Apart.symm

theorem not_reaches_of_clear {a b : Change} (clear : Clear a b) {current : Scoped Json}
    (workspace : Workspace) (other : Option Url) :
    ¬ (a.toWrite resource current).Reaches workspace b.key other b.tier := by
  rintro ⟨tier, _, meets⟩
  rcases clear with different | apart
  · exact different tier.symm
  · exact meets apart

omit [LawfulStore σ] in
theorem Wrote.not_reaches_of_later {before later : List (Turn (Session σ) Wait)}
    {t t' : Turn (Session σ) Wait} (wrote : Wrote resource changes s (before ++ t :: later) last)
    (clear : changes.Pairwise Clear) {w w' : SettingWrite} (on : t.on = .write w) (member : t' ∈ later)
    (on' : t'.on = .write w') (workspace : Workspace) :
    ¬ w'.Reaches workspace w.key w.resource w.tier := by
  obtain ⟨first, _, _, rfl, _, ended⟩ := wrote.of_append
  obtain ⟨c, rest, rfl, attempts, _, rested⟩ := ended.of_cons
  obtain ⟨d, listed, attempts'⟩ := rested.attempted member
  rw [Turn.Attempts, on, Wait.write.injEq] at attempts
  rw [Turn.Attempts, on', Wait.write.injEq] at attempts'
  have apart := (List.pairwise_cons.mp (List.pairwise_append.mp clear).2.1).1 d listed
  rw [attempts, attempts']
  exact not_reaches_of_clear apart.symm _ _

/-- If no two changes can disturb each other, each key holds in the end what its change made of what it
held before all of them. -/
theorem Wrote.inspect_change (wrote : Wrote resource changes s turns last) (quiet : Quiet turns)
    (written : ∀ t ∈ turns, t.result = .ok ()) (clear : changes.Pairwise Clear) {c : Change}
    (member : c ∈ changes) {v : Json}
    (given : (c.toWrite resource (Store.inspect s.store c.key resource)).value = some v)
    (filled : KeyPath.segments c.key ≠ []) :
    (Store.inspect last.store c.key resource).get c.tier = some v := by
  obtain ⟨first, rest, rfl⟩ := List.append_of_mem member
  obtain ⟨before, after, middle, rfl, begun, ended⟩ := wrote.of_append_changes
  obtain ⟨t, later, rfl, attempts, left, _⟩ := ended.of_cons_changes
  obtain ⟨_, _, between⟩ := List.pairwise_append.mp clear
  have earlier : (Store.inspect middle.store c.key resource).get c.tier =
      (Store.inspect s.store c.key resource).get c.tier :=
    begun.inspect_unwritten (fun t member => quiet t (by simp [member])) fun d listed same =>
      (between d listed c (by simp)).resolve_left fun different => different same
  have value : (c.toWrite resource (Store.inspect t.left.store c.key resource)).value = some v := by
    rw [← given, left]
    simp only [Migration.Change.toWrite, earlier]
  exact wrote.inspect_landed quiet attempts (written t (by simp)) value filled
    fun t' member' w' on' _ => wrote.not_reaches_of_later clear attempts member' on' _

end Session

end LinterClient
