import LinterClient.Proofs.Store.Lawful
import LinterClient.Store.Memory

/-!
The store in memory: which writes it accepts, and what they change.
-/

namespace LinterClient.MemoryStore

open Json (Members)

theorem lookup_setFolder (key other : String) (m : Members) (folders : List (String × Members)) :
    (setFolder key m folders).lookup other = if other = key then some m else folders.lookup other := by
  induction folders with
  | nil => simp [setFolder, lookup_cons_if]
  | cons head rest ih =>
    obtain ⟨k, n⟩ := head
    simp only [setFolder]
    by_cases first : key = k
    · subst first
      by_cases same : other = key <;> simp [lookup_cons_if, same]
    · by_cases same : other = k
      · subst same
        simp [first, Ne.symm first]
      · simp [first, lookup_cons_if, same, ih]

/-- Whether a tier can be written for a resource. -/
def Accepts (s : MemoryStore) (resource : Option Url) : Tier → Prop
  | .global => True
  | .workspace => s.workspace.isOpen
  | .folder => (s.folderKey? resource).isSome

theorem setTier_of_accepts (s : MemoryStore) (resource : Option Url) (m : Members) (t : Tier)
    (accepts : s.Accepts resource t) : ∃ s', s.setTier resource m t = .ok s' := by
  cases t with
  | global => exact ⟨_, rfl⟩
  | workspace => exact ⟨_, if_pos accepts⟩
  | folder =>
    obtain ⟨k, found⟩ := Option.isSome_iff_exists.mp accepts
    exact ⟨_, by simp only [setTier, found]; rfl⟩

theorem accepts_of_setTier {s s' : MemoryStore} {resource : Option Url} {m : Members} {t : Tier}
    (written : s.setTier resource m t = .ok s') : s.Accepts resource t := by
  cases t with
  | global => exact True.intro
  | workspace =>
    simp only [setTier] at written
    split at written
    · assumption
    · cases written
  | folder =>
    simp only [setTier] at written
    split at written
    · rename_i found
      simp [Accepts, found]
    · cases written

theorem workspace_setTier {s s' : MemoryStore} {resource : Option Url} {m : Members} {t : Tier}
    (written : s.setTier resource m t = .ok s') : s'.workspace = s.workspace := by
  cases t <;> simp only [setTier] at written
  · cases written
    rfl
  all_goals
    split at written
    · cases written
      rfl
    · cases written

/-- One tier has the new content, and the others have theirs. -/
theorem tier_setTier {s s' : MemoryStore} {resource : Option Url} {m : Members} {t : Tier}
    (written : s.setTier resource m t = .ok s') (other : Option Url) (u : Tier) :
    s'.tier other u =
      if u = t ∧ (u = .folder → s.folderKey? other = s.folderKey? resource) then m
      else s.tier other u := by
  cases t with
  | global =>
    cases written
    cases u <;> simp [tier, folderKey?]
  | workspace =>
    simp only [setTier] at written
    split at written
    · cases written
      cases u <;> simp [tier, folderKey?]
    · cases written
  | folder =>
    simp only [setTier] at written
    split at written
    · rename_i k found
      cases written
      cases u with
      | global => simp [tier]
      | workspace => simp [tier]
      | folder =>
        have same : folderKey? { s with folders := setFolder k m s.folders } other = s.folderKey? other := rfl
        simp only [tier, same, found, lookup_setFolder]
        cases key : s.folderKey? other with
        | none => simp
        | some k' => by_cases equal : k' = k <;> simp [equal]
    · cases written

theorem inspect_get (s : MemoryStore) (key : String) (resource : Option Url) (t : Tier) :
    (Store.inspect s key resource).get t =
      KeyPath.lookup (s.tier resource t) (KeyPath.segments key) :=
  Scoped.get_ofFn _ t

theorem write_cases (s : MemoryStore) (w : SettingWrite) :
    (¬ s.Accepts w.resource w.tier ∧ ∃ e, Store.write s w = (.error e, s)) ∨
      (s.Accepts w.resource w.tier ∧ ∃ s', s.update w = .ok s' ∧ Store.write s w = (.ok (), s')) := by
  cases result : s.update w with
  | ok s' => exact .inr ⟨accepts_of_setTier result, s', rfl, by simp [Store.write, result]⟩
  | error e =>
    refine .inl ⟨fun accepts => ?_, e, by simp [Store.write, result]⟩
    obtain ⟨s', written⟩ := setTier_of_accepts s w.resource
      (KeyPath.update (s.tier w.resource w.tier) w.value (KeyPath.segments w.key)) w.tier accepts
    rw [update, written] at result
    cases result

theorem write_ok_iff (s : MemoryStore) (w : SettingWrite) :
    (Store.write s w).1 = .ok () ↔ s.Accepts w.resource w.tier := by
  obtain ⟨refuses, e, failed⟩ | ⟨accepts, s', _, written⟩ := write_cases s w
  · simp [failed, refuses]
  · simp [written, accepts]

theorem workspace_write (s : MemoryStore) (w : SettingWrite) :
    (Store.write s w).2.workspace = s.workspace := by
  obtain ⟨_, e, failed⟩ | ⟨_, s', result, written⟩ := write_cases s w
  · rw [failed]
  · rw [written]
    exact workspace_setTier result

theorem accepts_write (s : MemoryStore) (w : SettingWrite) (resource : Option Url) (t : Tier) :
    (Store.write s w).2.Accepts resource t ↔ s.Accepts resource t := by
  cases t <;> simp only [Accepts, folderKey?, workspace_write]

instance : LawfulStore MemoryStore where
  inspect_written s w v written given filled := by
    obtain ⟨_, e, failed⟩ | ⟨_, s', result, ok⟩ := write_cases s w
    · rw [failed] at written
      cases written
    · rw [ok, inspect_get, tier_setTier result, if_pos ⟨rfl, fun _ => rfl⟩, given]
      exact KeyPath.lookup_assign_self _ v filled
  inspect_elsewhere s w key resource t apart := by
    obtain ⟨_, e, failed⟩ | ⟨_, s', result, ok⟩ := write_cases s w
    · rw [failed]
    · rw [ok, inspect_get, inspect_get, tier_setTier result]
      split
      · rename_i same
        obtain ⟨rfl, folder⟩ := same
        have away : KeyPath.Apart (KeyPath.segments w.key) (KeyPath.segments key) := by
          refine Classical.byContradiction fun meets => ?_
          exact apart ⟨rfl, folder, meets⟩
        have content : s.tier w.resource w.tier = s.tier resource w.tier := by
          cases tier : w.tier with
          | global => rfl
          | workspace => rfl
          | folder => simp only [MemoryStore.tier, folder tier]
        rw [KeyPath.lookup_update_of_apart _ _ away, content]
      · rfl
  inspect_refused s w e key resource refused := by
    obtain ⟨_, e, failed⟩ | ⟨_, s', result, ok⟩ := write_cases s w
    · rw [failed]
    · rw [ok] at refused
      cases refused
  workspace_write := workspace_write

instance : SharedGlobal MemoryStore where
  inspect_global _ _ _ := rfl

/-- The stores that writes lead to from the empty one of a workspace. A write that is refused changes
nothing. -/
inductive Reachable (workspace : Workspace) : MemoryStore → Prop where
  | new : Reachable workspace (.new workspace)
  | write {s : MemoryStore} (w : SettingWrite) :
    Reachable workspace s → Reachable workspace (Store.write s w).2

/-- Without an open workspace its tier stays empty. -/
theorem Reachable.workspaceTier_eq_nil {workspace : Workspace} {s : MemoryStore}
    (reachable : Reachable workspace s) (closed : s.workspace.isOpen = false) :
    s.workspaceTier = [] := by
  induction reachable with
  | new => rfl
  | @write s w _ ih =>
    rw [workspace_write] at closed
    obtain ⟨_, e, failed⟩ | ⟨accepts, s', result, ok⟩ := write_cases s w
    · rw [failed]
      exact ih closed
    · have same := tier_setTier result none .workspace
      have other : w.tier ≠ .workspace := by
        intro h
        rw [h] at accepts
        exact Bool.false_ne_true (closed.symm.trans accepts)
      rw [if_neg (fun h => other h.1.symm)] at same
      rw [ok]
      exact same.trans (ih closed)

/-- A tier that holds anything can be written. -/
theorem Reachable.accepts {workspace : Workspace} {s : MemoryStore}
    (reachable : Reachable workspace s) {key : String} {resource : Option Url} {t : Tier} {v : Json}
    (found : (Store.inspect s key resource).get t = some v) : s.Accepts resource t := by
  rw [inspect_get] at found
  cases t with
  | global => exact True.intro
  | workspace =>
    refine Classical.byContradiction fun closed => ?_
    have empty := reachable.workspaceTier_eq_nil (Bool.eq_false_iff.mpr closed)
    simp [tier, empty] at found
  | folder =>
    refine Classical.byContradiction fun outside => ?_
    have none : s.folderKey? resource = none := Option.not_isSome_iff_eq_none.mp outside
    simp [tier, none] at found

end LinterClient.MemoryStore
