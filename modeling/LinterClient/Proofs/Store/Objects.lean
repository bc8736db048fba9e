import LinterClient.Proofs.Store.Lawful
import LinterClient.Proofs.Store.Memory
import LinterClient.Store.Files

/-!
Stores that keep each tier as one object, in which keys are paths.
-/

namespace LinterClient

open Json (Members)

class ObjectStore (σ : Type) [Store σ] where
  /-- All settings of a tier, seen from a resource. -/
  content : σ → Option Url → Tier → Members
  inspect_get (s : σ) (key : String) (resource : Option Url) (t : Tier) :
    (Store.inspect s key resource).get t =
      KeyPath.lookup (content s resource t) (KeyPath.segments key)

/-- A store in which a write that succeeds sets the value at the path of its key. -/
class AssigningStore (σ : Type) [Store σ] [ObjectStore σ] : Prop where
  content_written (s : σ) (w : SettingWrite) (v : Json) :
    (Store.write s w).1 = .ok () → w.value = some v →
      ObjectStore.content (Store.write s w).2 w.resource w.tier =
        KeyPath.assign (ObjectStore.content s w.resource w.tier) v (KeyPath.segments w.key)

instance : ObjectStore MemoryStore where
  content := MemoryStore.tier
  inspect_get := MemoryStore.inspect_get

instance : AssigningStore MemoryStore where
  content_written s w v written given := by
    obtain ⟨_, e, failed⟩ | ⟨_, s', result, ok⟩ := MemoryStore.write_cases s w
    · rw [failed] at written
      cases written
    · rw [ok]
      refine (MemoryStore.tier_setTier result w.resource w.tier).trans ?_
      rw [if_pos ⟨rfl, fun _ => rfl⟩, given]
      rfl

/-- A file that is missing or cannot be read as a whole holds an empty object. -/
instance : ObjectStore FileStore where
  content s resource t := ((s.path? resource t).map (FileStore.settings s.files)).getD []
  inspect_get s key resource t := by
    refine (Scoped.get_ofFn _ t).trans ?_
    cases s.path? resource t with
    | none => exact (KeyPath.lookup_nil _).symm
    | some p => rfl

namespace FaultyStore

variable {σ : Type} [Store σ] [ObjectStore σ]

instance : ObjectStore (FaultyStore σ) where
  content s := ObjectStore.content s.store
  inspect_get s := ObjectStore.inspect_get s.store

instance [AssigningStore σ] : AssigningStore (FaultyStore σ) where
  content_written s w v written given := by
    show ObjectStore.content (Store.write s w).2.store w.resource w.tier = _
    obtain ⟨e, failed, _⟩ | ⟨result, store⟩ := write_cases s w
    · rw [failed] at written
      cases written
    · rw [store]
      exact AssigningStore.content_written _ _ _ (result.symm.trans written) given

end FaultyStore

end LinterClient
