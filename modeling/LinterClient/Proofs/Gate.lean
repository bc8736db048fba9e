import LinterClient.Gate
import LinterClient.Proofs.Store.Memory

/-!
What the gate makes of a value that it cannot decode.

The gate decodes the value of the narrowest tier only. One of the wrong kind hides the broader tiers and
the default, and the fallback of the gate stands in for them.
-/

namespace LinterClient

namespace Scoped

variable {α : Type}

/-- A tier that is narrower than the given one has a value. -/
def Overridden (s : Scoped α) (t : Tier) : Prop :=
  ∃ u, u ∉ t.upTo ∧ (s.get u).isSome

instance (s : Scoped α) (t : Tier) : Decidable (s.Overridden t) :=
  decidable_of_iff (Tier.all.any fun u => u ∉ t.upTo ∧ (s.get u).isSome) <| by
    simp only [List.any_eq_true, decide_eq_true_eq, Overridden]
    exact exists_congr fun u => and_iff_right (by cases u <;> decide)

/-- A value counts unless a narrower tier has one. -/
theorem effective_of_get {s : Scoped α} {t : Tier} {v : α} (held : s.get t = some v)
    (plain : ¬ s.Overridden t) : s.effective = some v := by
  have narrower (u : Tier) (outside : u ∉ t.upTo) : s.get u = none :=
    Option.not_isSome_iff_eq_none.mp fun given => plain ⟨u, outside, given⟩
  cases t with
  | global =>
    have workspace : s.workspace = none := narrower .workspace (by decide)
    have folder : s.folder = none := narrower .folder (by decide)
    have global : s.global = some v := held
    simp [effective, workspace, folder, global]
  | workspace =>
    have folder : s.folder = none := narrower .folder (by decide)
    have workspace : s.workspace = some v := held
    simp [effective, workspace, folder]
  | folder =>
    have folder : s.folder = some v := held
    simp [effective, folder]

/-- Below a value of a narrower tier nothing counts. -/
theorem effective_set_of_overridden {s : Scoped α} {t : Tier} (covered : s.Overridden t) (v : Option α) :
    (s.set t v).effective = s.effective := by
  obtain ⟨u, outside, given⟩ := covered
  obtain ⟨w, found⟩ := Option.isSome_iff_exists.mp given
  cases t <;> cases u <;> first | exact absurd outside (by decide) | skip
  all_goals simp only [get] at found; simp [effective, set, found]

end Scoped

namespace Gate

open Settings

/-! ## The settings of the gate -/

/-- The settings that the gate reads. -/
inductive Setting where
  | enable
  | validate
  | probe
deriving DecidableEq

namespace Setting

def name : Setting → String
  | .enable => "enable"
  | .validate => "validate"
  | .probe => "probe"

def key (g : Setting) : String :=
  Keys.qualified Keys.linter g.name

/-- Whether a value is of the kind that the gate reads. -/
def decodes : Setting → Json → Bool
  | .enable, v => (Json.Decoder.bool v).toOption.isSome
  | .validate, v => (Json.Decoder.list ValidateEntry.decode v).toOption.isSome
  | .probe, v => (Json.Decoder.list .any v).toOption.isSome

theorem key_apart {g h : Setting} (different : g ≠ h) :
    KeyPath.Apart (KeyPath.segments g.key) (KeyPath.segments h.key) := by
  cases g <;> cases h <;> first | exact absurd rfl different | decide +kernel

end Setting

/-! ## What is read of them -/

section Reading

variable {σ τ : Type} [Store σ] [Store τ] (s : σ) (d : TextDocument)

def enabled : Bool :=
  Store.readOr .bool true s "enable" (some d.uri)

/-- Whether the language of a document is listed as one to validate. -/
def listed : Bool :=
  (Store.readOr (.list ValidateEntry.decode) [] s "validate" (some d.uri)).any (·.language? = some d.language)

/-- Whether the language of a document is listed as one to probe. -/
def probed : Bool :=
  (Store.readOr (.list .any) [] s "probe" (some d.uri)).contains (.str d.language)

/-- The decision from what was read, and from whether the server declined the document. -/
def decision (enabled listed declined probed : Bool) : Validate :=
  if !enabled then .off else if listed then .on else if declined then .off else if probed then .probe else .off

theorem outcome_eq (failures : ProbeFailures) :
    outcome s failures d =
      decision (enabled s d) (listed s d) (failures.contains d.uri) (probed s d) := rfl

theorem decision_enabled (enabled listed declined probed : Bool) :
    decision true listed declined probed = decision enabled listed declined probed ↔
      enabled = true ∨ decision true listed declined probed = .off := by
  revert enabled listed declined probed
  decide

theorem decision_listed (enabled listed declined probed : Bool) :
    decision enabled false declined probed = decision enabled listed declined probed ↔
      decision enabled listed declined probed ≠ .on := by
  revert enabled listed declined probed
  decide

theorem decision_probed (enabled listed declined probed : Bool) :
    decision enabled listed declined false = decision enabled listed declined probed ↔
      decision enabled listed declined probed ≠ .probe := by
  revert enabled listed declined probed
  decide

namespace Setting

/-- What the gate takes from a setting. -/
def reading : Setting → Bool
  | .enable => enabled s d
  | .validate => listed s d
  | .probe => probed s d

/-- What it takes from one that is missing, or cannot be decoded. -/
def fallback : Setting → Bool
  | .enable => true
  | .validate | .probe => false

end Setting

variable {s d}

theorem get_congr {s' : τ} {key : String} {resource : Option Url}
    (same : (Store.inspect s' key resource).effective = (Store.inspect s key resource).effective) :
    Store.get s' key resource = Store.get s key resource := by
  rw [Store.get, Store.get, same]

theorem Setting.reading_congr {s' : τ} {g : Setting}
    (same : (Store.inspect s' g.key (some d.uri)).effective = (Store.inspect s g.key (some d.uri)).effective) :
    g.reading s' d = g.reading s d := by
  have got := get_congr same
  cases g <;> simp only [key, name] at got <;>
    simp only [reading, enabled, listed, probed, Store.readOr, Store.read?, got]

theorem Setting.reading_of_malformed {g : Setting} {v : Json}
    (effective : (Store.inspect s g.key (some d.uri)).effective = some v) (malformed : g.decodes v = false) :
    g.reading s d = g.fallback := by
  have got : Store.get s g.key (some d.uri) = some v := by
    rw [Store.get, effective]
    rfl
  cases g <;> simp only [key, name] at got <;>
    simp only [decodes, Option.isSome_eq_false_iff, Option.isNone_iff_eq_none] at malformed <;>
    simp [reading, enabled, listed, probed, Store.readOr, Store.read?, got, malformed, fallback]

end Reading

/-! ## Without a value -/

section Without

variable {σ τ : Type} [Store σ] [Store τ]

/-- A store that lacks the value of one setting in one tier, and is otherwise alike for the gate. -/
structure Without (s : σ) (s' : τ) (g : Setting) (t : Tier) (resource : Option Url) : Prop where
  removed : Store.inspect s' g.key resource = (Store.inspect s g.key resource).set t none
  others (h : Setting) : h ≠ g → Store.inspect s' h.key resource = Store.inspect s h.key resource

variable {s : σ} {s' : τ} {g : Setting} {t : Tier} {d : TextDocument}

theorem Without.reading_of_ne (without : Without s s' g t (some d.uri)) (h : Setting) (other : h ≠ g) :
    h.reading s' d = h.reading s d :=
  Setting.reading_congr (by rw [without.others h other])

theorem Without.outcome_of_overridden (without : Without s s' g t (some d.uri))
    (covered : (Store.inspect s g.key (some d.uri)).Overridden t) (failures : ProbeFailures) :
    outcome s failures d = outcome s' failures d := by
  have same (h : Setting) : h.reading s' d = h.reading s d := by
    by_cases own : h = g
    · subst own
      exact Setting.reading_congr (by rw [without.removed, Scoped.effective_set_of_overridden covered])
    · exact without.reading_of_ne h own
  have enable : enabled s' d = enabled s d := same .enable
  have validate : listed s' d = listed s d := same .validate
  have probe : probed s' d = probed s d := same .probe
  rw [outcome_eq, outcome_eq, enable, validate, probe]

/-- Removing a value of the wrong kind makes no difference to the gate if a narrower tier has a value, or
if what comes to light then decides nothing. -/
theorem outcome_without (failures : ProbeFailures) {v : Json} (without : Without s s' g t (some d.uri))
    (held : (Store.inspect s g.key (some d.uri)).get t = some v) (malformed : g.decodes v = false) :
    outcome s failures d = outcome s' failures d ↔
      (Store.inspect s g.key (some d.uri)).Overridden t ∨
        match g with
        | .enable => enabled s' d = true ∨ outcome s failures d = .off
        | .validate => outcome s' failures d ≠ .on
        | .probe => outcome s' failures d ≠ .probe := by
  by_cases covered : (Store.inspect s g.key (some d.uri)).Overridden t
  · simp [covered, without.outcome_of_overridden covered failures]
  -- the fallback of the setting stood in for what comes to light without the value
  · have fallback := Setting.reading_of_malformed (Scoped.effective_of_get held covered) malformed
    simp only [covered, false_or]
    cases g with
    | enable =>
      have validate : listed s' d = listed s d := without.reading_of_ne .validate (by decide)
      have probe : probed s' d = probed s d := without.reading_of_ne .probe (by decide)
      have enable : enabled s d = true := fallback
      rw [outcome_eq, outcome_eq, validate, probe, enable]
      exact decision_enabled _ _ _ _
    | validate =>
      have enable : enabled s' d = enabled s d := without.reading_of_ne .enable (by decide)
      have probe : probed s' d = probed s d := without.reading_of_ne .probe (by decide)
      have validate : listed s d = false := fallback
      rw [outcome_eq, outcome_eq, enable, probe, validate]
      exact decision_listed _ _ _ _
    | probe =>
      have enable : enabled s' d = enabled s d := without.reading_of_ne .enable (by decide)
      have validate : listed s' d = listed s d := without.reading_of_ne .validate (by decide)
      have probe : probed s d = false := fallback
      rw [outcome_eq, outcome_eq, enable, validate, probe]
      exact decision_probed _ _ _ _

/-- In memory that is the store after the value was removed. -/
theorem without_write {s : MemoryStore} (g : Setting) {t : Tier} {resource : Option Url}
    (accepts : s.Accepts resource t) : Without s (Store.write s ⟨g.key, none, t, resource⟩).2 g t resource where
  removed := by
    refine Scoped.ext_get fun u => ?_
    by_cases same : u = t
    · subst same
      obtain ⟨refuses, -⟩ | ⟨-, s', result, written⟩ := MemoryStore.write_cases s ⟨g.key, none, u, resource⟩
      · exact absurd accepts refuses
      · have filled : KeyPath.segments g.key ≠ [] := by cases g <;> decide +kernel
        rw [written, MemoryStore.inspect_get, MemoryStore.tier_setTier result, if_pos ⟨rfl, fun _ => rfl⟩,
          Scoped.get_set_self]
        exact KeyPath.lookup_remove_of_prefix _ filled List.prefix_rfl
    · rw [LawfulStore.inspect_elsewhere _ _ _ _ _ fun reaches => same reaches.1, Scoped.get_set_of_ne _ _ same]
  others h other := by
    refine Scoped.ext_get fun u => LawfulStore.inspect_elsewhere _ _ _ _ _ fun reaches => ?_
    exact reaches.2.2 (Setting.key_apart other.symm)

/-- A text for the list of languages to probe turns the gate off for one that is probed by default. -/
theorem outcome_without_text :
    let d : TextDocument := ⟨⟨"file", some ⟨"", .empty, none⟩, "/a.js", none, none⟩, "javascript"⟩
    let set (s : MemoryStore) (g : Setting) (v : Option Json) (t : Tier) : MemoryStore :=
      (Store.write s ⟨g.key, v, t, some d.uri⟩).2
    let s := set (.new ⟨[], none⟩) .probe (some (.str "vue")) .global
    outcome s .empty d = .off ∧ outcome (set s .probe none .global) .empty d = .probe ∧
      outcome s .empty d ≠ outcome (set s .probe none .global) .empty d := by
  intro d set s
  have listed : outcome (set s .probe none .global) .empty d = .probe := by decide +kernel
  refine ⟨by decide +kernel, listed, fun same => ?_⟩
  have accepts : s.Accepts (some d.uri) .global := trivial
  have held : (Store.inspect s Setting.probe.key (some d.uri)).get .global = some (.str "vue") := by
    decide +kernel
  obtain covered | other :=
    (outcome_without .empty (without_write .probe accepts) held (by decide +kernel)).mp same
  · exact absurd covered (by decide +kernel)
  · exact other listed

end Without

end Gate

end LinterClient
