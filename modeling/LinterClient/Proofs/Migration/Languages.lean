import Mathlib.Data.String.Basic
import LinterClient.Proofs.Migration.Rules

/-!
The sections that a migration looks at.

Reading a section when it is first needed comes to the same as having read all of them: a section is
recorded if some tier opts its language out, and each of its tiers is the one that was read, migrated
if it is that tier that opts the language out.
-/

namespace LinterClient.Migration

@[simp] theorem Family.get_ofScoped (s : Scoped Json) (t : Tier) :
    (Family.ofScoped s).get t = ⟨s.get t, false⟩ := by
  cases t <;> rfl

@[simp] theorem Family.get_ofFn (f : Tier → Element) (t : Tier) : (Family.ofFn f).get t = f t := by
  cases t <;> rfl

theorem Family.get_set (f : Family) (t u : Tier) (e : Element) :
    (f.set t e).get u = if u = t then e else f.get u := by
  cases t <;> cases u <;> rfl

theorem Family.needsUpdate_eq_false (f : Family) :
    f.needsUpdate = false ↔ ∀ t, (f.get t).changed = false := by
  simp only [needsUpdate, Tier.all, List.any_cons, List.any_nil, Bool.or_false, Bool.or_eq_false_iff]
  constructor
  · rintro ⟨global, workspace, folder⟩ t
    cases t <;> assumption
  · intro unchanged
    exact ⟨unchanged _, unchanged _, unchanged _⟩

namespace Languages

/-- Names in strictly growing order. -/
def Sorted (acc : Languages) : Prop :=
  acc.Pairwise fun a b => a.1 < b.1

theorem lookup_none_of_lt {acc : Languages} {l : String} (below : ∀ p ∈ acc, l < p.1) :
    acc.lookup l = none := by
  induction acc with
  | nil => rfl
  | cons head rest ih =>
    obtain ⟨name, f⟩ := head
    have first : l < name := below (name, f) (by simp)
    rw [lookup_cons_if, if_neg first.ne]
    exact ih fun p member => below p (List.mem_cons_of_mem _ member)

theorem mem_iff_lookup {acc : Languages} (sorted : acc.Sorted) (l : String) (f : Family) :
    (l, f) ∈ acc ↔ acc.lookup l = some f := by
  induction acc with
  | nil => simp
  | cons head rest ih =>
    obtain ⟨name, g⟩ := head
    obtain ⟨below, tail⟩ := List.pairwise_cons.mp sorted
    rw [lookup_cons_if, List.mem_cons, Prod.mk.injEq, ih tail]
    by_cases same : l = name
    · subst same
      have gone : rest.lookup l = none := lookup_none_of_lt fun p member => below p member
      simp [gone, eq_comm]
    · simp [same]

end Languages

variable (snapshot : Snapshot)

/-- What was recorded of a section, or else what is read of it. -/
def sectionIn (acc : Languages) (l : String) : Family :=
  (acc.lookup l).getD (.ofScoped (snapshot.language l))

theorem mem_optOut {t : Tier} {l : String} {acc : Languages} {p : String × Family}
    (member : p ∈ optOut snapshot t l acc) : p.1 = l ∨ ∃ q ∈ acc, q.1 = p.1 := by
  induction acc with
  | nil =>
    simp only [optOut, List.mem_singleton] at member
    exact .inl (by rw [member])
  | cons head rest ih =>
    obtain ⟨name, f⟩ := head
    simp only [optOut] at member
    split at member
    · rcases List.mem_cons.mp member with same | tail
      · exact .inr ⟨(name, f), by simp, by rw [same]⟩
      · exact .inr ⟨p, List.mem_cons_of_mem _ tail, rfl⟩
    · split at member
      · rcases List.mem_cons.mp member with same | old
        · exact .inl (by rw [same])
        · exact .inr ⟨p, old, rfl⟩
      · rcases List.mem_cons.mp member with same | tail
        · exact .inr ⟨(name, f), by simp, by rw [same]⟩
        · rcases ih tail with fresh | ⟨q, old, same⟩
          · exact .inl fresh
          · exact .inr ⟨q, List.mem_cons_of_mem _ old, same⟩

theorem sorted_optOut (t : Tier) (l : String) {acc : Languages} (sorted : acc.Sorted) :
    (optOut snapshot t l acc).Sorted := by
  induction acc with
  | nil => exact List.pairwise_singleton _ _
  | cons head rest ih =>
    obtain ⟨name, f⟩ := head
    obtain ⟨below, tail⟩ := List.pairwise_cons.mp sorted
    simp only [optOut]
    split
    · exact List.pairwise_cons.mpr ⟨below, tail⟩
    · rename_i different
      split
      · rename_i less
        refine List.pairwise_cons.mpr ⟨?_, sorted⟩
        intro p member
        rcases List.mem_cons.mp member with same | old
        · rw [same]
          exact less
        · exact lt_trans less (below p old)
      · rename_i greater
        have above : name < l := lt_of_le_of_ne (not_lt.mp greater) (Ne.symm different)
        refine List.pairwise_cons.mpr ⟨?_, ih tail⟩
        intro p member
        rcases mem_optOut snapshot member with fresh | ⟨q, old, same⟩
        · rw [fresh]
          exact above
        · rw [← same]
          exact below q old

theorem lookup_optOut (t : Tier) (l other : String) {acc : Languages} (sorted : acc.Sorted) :
    (optOut snapshot t l acc).lookup other =
      if other = l then
        some ((sectionIn snapshot acc l).set t (migrateOptOut ((sectionIn snapshot acc l).get t)))
      else acc.lookup other := by
  induction acc with
  | nil => simp [optOut, lookup_cons_if, sectionIn]
  | cons head rest ih =>
    obtain ⟨name, f⟩ := head
    obtain ⟨below, tail⟩ := List.pairwise_cons.mp sorted
    simp only [optOut]
    split
    · rename_i same
      subst same
      by_cases found : other = l <;> simp [lookup_cons_if, found, sectionIn]
    · rename_i different
      split
      · rename_i less
        have absent : ((name, f) :: rest).lookup l = none := by
          refine Languages.lookup_none_of_lt fun p member => ?_
          rcases List.mem_cons.mp member with same | old
          · rw [same]
            exact less
          · exact lt_trans less (below p old)
        rw [lookup_cons_if]
        simp only [sectionIn, absent, Option.getD_none]
      · have later : sectionIn snapshot ((name, f) :: rest) l = sectionIn snapshot rest l := by
          simp [sectionIn, lookup_cons_if, different]
        rw [lookup_cons_if, ih tail, later, lookup_cons_if]
        by_cases found : other = name
        · subst found
          simp [Ne.symm different]
        · simp [found]

/-- Whether a tier fixes everything, by itself or through a broader one. -/
def fixes (t : Tier) : Bool :=
  t.upTo.any fun u => (ownFixAll snapshot u).2

/-- The opt-outs that a migration carries out, in order. -/
def optOuts : List (Tier × String) :=
  Tier.all.flatMap fun t =>
    if fixes snapshot t then (optedOutLanguages (snapshot.validate.get t)).map (Prod.mk t) else []

theorem mem_optOuts (t : Tier) (l : String) :
    (t, l) ∈ optOuts snapshot ↔
      fixes snapshot t = true ∧ l ∈ optedOutLanguages (snapshot.validate.get t) := by
  simp only [optOuts, List.mem_flatMap]
  constructor
  · rintro ⟨u, _, member⟩
    split at member
    · obtain ⟨name, listed, same⟩ := List.mem_map.mp member
      cases same
      exact ⟨‹_›, listed⟩
    · cases member
  · rintro ⟨fixing, listed⟩
    exact ⟨t, by cases t <;> simp [Tier.all], by simpa [fixing] using listed⟩

theorem record_languages (resource : Option Url) :
    (record snapshot resource).languages =
      (optOuts snapshot).foldl (fun acc p => optOut snapshot p.1 p.2 acc) [] := by
  simp only [record, optOuts, List.foldl_flatMap]
  congr 1
  funext acc t
  change (if fixes snapshot t then _ else acc) = _
  cases fixes snapshot t with
  | false => rfl
  | true => simp only [if_true, List.foldl_map]

/-- The code actions of a language in a tier after some opt-outs. -/
def sectionAfter (done : List (Tier × String)) (l : String) (t : Tier) : Element :=
  if (t, l) ∈ done then migrateOptOut ⟨(snapshot.language l).get t, false⟩
  else ⟨(snapshot.language l).get t, false⟩

/-- What is recorded after some opt-outs. -/
structure Tracks (done : List (Tier × String)) (acc : Languages) : Prop where
  sorted : acc.Sorted
  names (l : String) : (acc.lookup l).isSome ↔ ∃ t, (t, l) ∈ done
  elements (l : String) (t : Tier) : (sectionIn snapshot acc l).get t = sectionAfter snapshot done l t

theorem tracks_nil : Tracks snapshot [] [] where
  sorted := .nil
  names l := by simp
  elements l t := by simp [sectionIn, sectionAfter]

variable {snapshot}

theorem Tracks.optOut {done : List (Tier × String)} {acc : Languages}
    (tracks : Tracks snapshot done acc) (t : Tier) (l : String) :
    Tracks snapshot (done ++ [(t, l)]) (optOut snapshot t l acc) where
  sorted := sorted_optOut snapshot t l tracks.sorted
  names other := by
    rw [lookup_optOut snapshot t l other tracks.sorted]
    by_cases same : other = l
    · simp only [same, if_true, Option.isSome_some, true_iff]
      exact ⟨t, by simp⟩
    · simp [same, tracks.names]
  elements other u := by
    by_cases same : other = l
    · subst same
      have found : sectionIn snapshot (Migration.optOut snapshot t other acc) other =
          (sectionIn snapshot acc other).set t (migrateOptOut ((sectionIn snapshot acc other).get t)) := by
        simp only [sectionIn, lookup_optOut snapshot t other other tracks.sorted, if_true, Option.getD_some]
      rw [found, Family.get_set]
      by_cases here : u = t
      · subst here
        -- An opt-out that was carried out before is one that is carried out again.
        simp only [if_true, tracks.elements, sectionAfter, List.mem_append, List.mem_singleton, or_true]
        split
        · exact migrateOptOut_idempotent _
        · rfl
      · simp [here, tracks.elements, sectionAfter]
    · have kept : sectionIn snapshot (Migration.optOut snapshot t l acc) other =
          sectionIn snapshot acc other := by
        simp only [sectionIn, lookup_optOut snapshot t l other tracks.sorted, if_neg same]
      simp [kept, tracks.elements, sectionAfter, same]

theorem Tracks.foldl {done : List (Tier × String)} {acc : Languages}
    (tracks : Tracks snapshot done acc) (more : List (Tier × String)) :
    Tracks snapshot (done ++ more)
      (more.foldl (fun acc p => Migration.optOut snapshot p.1 p.2 acc) acc) := by
  induction more generalizing done acc with
  | nil => simpa using tracks
  | cons p more ih =>
    have next := ih (tracks.optOut p.1 p.2)
    simpa using next

theorem record_tracks (snapshot : Snapshot) (resource : Option Url) :
    Tracks snapshot (optOuts snapshot) (record snapshot resource).languages := by
  rw [record_languages]
  simpa using (tracks_nil snapshot).foldl (optOuts snapshot)

/-- Each recorded section is that of a language which some tier opts out. -/
theorem section_of_mem_languages {resource : Option Url} {l : String} {f : Family}
    (member : (l, f) ∈ (record snapshot resource).languages) :
    (∃ t, (t, l) ∈ optOuts snapshot) ∧ ∀ t, f.get t = sectionAfter snapshot (optOuts snapshot) l t := by
  have tracks := record_tracks snapshot resource
  have found := (Languages.mem_iff_lookup tracks.sorted l f).mp member
  refine ⟨(tracks.names l).mp (by simp [found]), fun t => ?_⟩
  rw [← tracks.elements l t]
  simp [sectionIn, found]

/-- Each such language has its section recorded. -/
theorem mem_languages_of_optOut (resource : Option Url) {t : Tier} {l : String}
    (out : (t, l) ∈ optOuts snapshot) : ∃ f, (l, f) ∈ (record snapshot resource).languages := by
  have tracks := record_tracks snapshot resource
  obtain ⟨f, found⟩ := Option.isSome_iff_exists.mp ((tracks.names l).mpr ⟨t, out⟩)
  exact ⟨f, (Languages.mem_iff_lookup tracks.sorted l f).mpr found⟩

end LinterClient.Migration
