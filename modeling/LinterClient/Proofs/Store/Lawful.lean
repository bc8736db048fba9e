import LinterClient.Proofs.KeyPath
import LinterClient.Store.Basic

/-!
Stores that keep what is written, and change nothing else.
-/

namespace LinterClient

/-- The URL of the folder that a resource belongs to. -/
def Workspace.folderUri? (w : Workspace) (resource : Option Url) : Option String :=
  (resource.bind w.folderFor?).map (·.uri.text)

/-- Whether a write can change what a key holds in a tier, seen from a resource. -/
def SettingWrite.Reaches (w : SettingWrite) (workspace : Workspace) (key : String)
    (resource : Option Url) (t : Tier) : Prop :=
  t = w.tier ∧ (t = .folder → workspace.folderUri? resource = workspace.folderUri? w.resource) ∧
    ¬ KeyPath.Apart (KeyPath.segments w.key) (KeyPath.segments key)

class LawfulStore (σ : Type) [Store σ] : Prop where
  inspect_written (s : σ) (w : SettingWrite) (v : Json) :
    (Store.write s w).1 = .ok () → w.value = some v → KeyPath.segments w.key ≠ [] →
      (Store.inspect (Store.write s w).2 w.key w.resource).get w.tier = some v
  inspect_elsewhere (s : σ) (w : SettingWrite) (key : String) (resource : Option Url) (t : Tier) :
    ¬ w.Reaches (Store.workspace s) key resource t →
      (Store.inspect (Store.write s w).2 key resource).get t = (Store.inspect s key resource).get t
  inspect_refused (s : σ) (w : SettingWrite) (e : StoreError) (key : String) (resource : Option Url) :
    (Store.write s w).1 = .error e →
      Store.inspect (Store.write s w).2 key resource = Store.inspect s key resource
  workspace_write (s : σ) (w : SettingWrite) :
    Store.workspace (Store.write s w).2 = Store.workspace s

/-- A store whose global tier is the same for every resource. -/
class SharedGlobal (σ : Type) [Store σ] : Prop where
  inspect_global (s : σ) (key : String) (resource : Option Url) :
    (Store.inspect s key resource).global = (Store.inspect s key none).global

/-- A store whose writes can fail: for each attempt a rule says whether and why, from how many were
made before. -/
structure FaultyStore (σ : Type) where
  store : σ
  attempts : Nat
  fault : Nat → SettingWrite → Option StoreError

namespace FaultyStore

variable {σ : Type} [Store σ]

instance : Store (FaultyStore σ) where
  workspace s := Store.workspace s.store
  inspect s := Store.inspect s.store
  write s w :=
    match s.fault s.attempts w with
    | some e => (.error e, { s with attempts := s.attempts + 1 })
    | none =>
      let (result, store) := Store.write s.store w
      (result, { s with store, attempts := s.attempts + 1 })

/-- A write that fails leaves no trace, and one that does not is like any other. -/
theorem write_cases (s : FaultyStore σ) (w : SettingWrite) :
    (∃ e, (Store.write s w).1 = .error e ∧ (Store.write s w).2.store = s.store) ∨
      ((Store.write s w).1 = (Store.write s.store w).1 ∧
        (Store.write s w).2.store = (Store.write s.store w).2) := by
  cases found : s.fault s.attempts w with
  | some e => exact .inl ⟨e, by simp [Store.write, found]⟩
  | none => exact .inr (by simp [Store.write, found])

instance [LawfulStore σ] : LawfulStore (FaultyStore σ) where
  inspect_written s w v written given filled := by
    obtain ⟨e, failed, _⟩ | ⟨result, store⟩ := write_cases s w
    · rw [failed] at written
      cases written
    · show (Store.inspect (Store.write s w).2.store w.key w.resource).get w.tier = some v
      rw [store]
      exact LawfulStore.inspect_written _ _ _ (result.symm.trans written) given filled
  inspect_elsewhere s w key resource t apart := by
    show (Store.inspect (Store.write s w).2.store key resource).get t = _
    obtain ⟨e, _, store⟩ | ⟨_, store⟩ := write_cases s w
    · rw [store]
      rfl
    · rw [store]
      exact LawfulStore.inspect_elsewhere _ _ _ _ _ apart
  inspect_refused s w e key resource refused := by
    show Store.inspect (Store.write s w).2.store key resource = _
    obtain ⟨_, _, store⟩ | ⟨result, store⟩ := write_cases s w
    · rw [store]
      rfl
    · rw [store]
      exact LawfulStore.inspect_refused _ _ _ _ _ (result.symm.trans refused)
  workspace_write s w := by
    show Store.workspace (Store.write s w).2.store = _
    obtain ⟨_, _, store⟩ | ⟨_, store⟩ := write_cases s w
    · rw [store]
      rfl
    · rw [store]
      exact LawfulStore.workspace_write _ _

instance [SharedGlobal σ] : SharedGlobal (FaultyStore σ) where
  inspect_global s := SharedGlobal.inspect_global s.store

end FaultyStore

end LinterClient
