import LinterClient.Proofs.FileSystem.Contents

/-!
Files and whole directories under another name.

What is neither below the old name nor below the new one stays as it is, and everything stands in a
directory afterwards.
-/

namespace LinterClient.FileSystem

variable {fs fs' : FileSystem} {p q : FilePath} {source target l : Location}

/-- A directory that can be moved: it does not move into itself, and nothing is below its new name. -/
structure Movable (fs : FileSystem) (source target : Location) : Prop where
  outside : ¬ source <+: target
  inside : target ≠ []
  free : ∀ entry ∈ fs.entries, target <+: entry.1 → entry.1 = target

/-- What is below the new name was below the old one. -/
theorem lookup_moved (movable : Movable fs source target) (l : Location) :
    (moved fs source target).entries.lookup l =
      if target <+: l then fs.entries.lookup (source ++ l.drop target.length)
      else if source <+: l then none else fs.entries.lookup l := by
  obtain ⟨entries⟩ := fs
  obtain ⟨outside, inside, free⟩ := movable
  simp only [moved] at free ⊢
  induction entries with
  | nil => simp
  | cons entry rest ih =>
    obtain ⟨k, e⟩ := entry
    have more := ih fun entry member => free entry (List.mem_cons_of_mem _ member)
    have here : target <+: k → k = target := free (k, e) List.mem_cons_self
    -- an entry that does not count on either side
    have skip (away : target <+: l → source ++ l.drop target.length ≠ k)
        (other : ¬ target <+: l → ¬ source <+: l → l ≠ k) :
        (if target <+: l then rest.lookup (source ++ l.drop target.length)
          else if source <+: l then none else rest.lookup l) =
        if target <+: l then ((k, e) :: rest).lookup (source ++ l.drop target.length)
          else if source <+: l then none else ((k, e) :: rest).lookup l := by
      by_cases below : target <+: l
      · rw [if_pos below, if_pos below, List.lookup_cons, beq_false_of_ne (away below)]
      · by_cases left : source <+: l
        · rw [if_neg below, if_neg below, if_pos left, if_pos left]
        · rw [if_neg below, if_neg below, if_neg left, if_neg left, List.lookup_cons,
            beq_false_of_ne (other below left)]
    by_cases replaced : k = target
    · subst replaced
      rw [List.filter_cons_of_neg (by simp), more]
      refine skip (fun _ same => outside ⟨_, same⟩) fun below _ same => below (by simp [same])
    · rw [List.filter_cons_of_pos (by simpa using replaced), List.map_cons]
      by_cases taken : source <+: k
      · obtain ⟨x, rfl⟩ := taken
        have prefixed : source.isPrefixOf (source ++ x) = true := by simp
        rw [if_pos prefixed, List.drop_left, List.lookup_cons]
        by_cases same : l = target ++ x
        · subst same
          simp
        · rw [beq_false_of_ne same, more]
          refine skip (fun below equal => ?_) fun _ left equal => left ⟨x, equal.symm⟩
          obtain ⟨r, rfl⟩ := below
          rw [List.drop_left, List.append_right_inj] at equal
          exact same (by rw [equal])
      · have other : source.isPrefixOf k ≠ true := by simpa using taken
        rw [if_neg other, List.lookup_cons]
        by_cases same : l = k
        · subst same
          have below : ¬ target <+: l := fun below => replaced (here below)
          simp [below, taken]
        · rw [beq_false_of_ne same, more]
          exact skip (fun _ equal => taken ⟨_, equal⟩) fun _ _ => same

theorem entryAt?_moved (movable : Movable fs source target) (l : Location) :
    (moved fs source target).entryAt? l =
      if target <+: l then fs.entryAt? (source ++ l.drop target.length)
      else if source <+: l then none else fs.entryAt? l := by
  have inner : source ≠ [] := fun root => movable.outside (by simp [root])
  have found := lookup_moved movable l
  by_cases root : l = []
  · have above : ¬ target <+: [] := by simpa using movable.inside
    have above' : ¬ source <+: [] := by simpa using inner
    rw [root, if_neg above, if_neg above', entryAt?_nil, entryAt?_nil]
  · have below : source ++ l.drop target.length ≠ [] := by simp [inner]
    simp only [entryAt?, if_neg root, if_neg below]
    exact found

theorem WellFormed.moved (wf : fs.WellFormed) (movable : Movable fs source target)
    (parent : ∀ above name, target = above ++ [name] → fs.entryAt? above = some .directory) :
    (moved fs source target).WellFormed := by
  intro above name e stands
  rw [entryAt?_moved movable] at stands ⊢
  by_cases below : target <+: above
  · obtain ⟨r, rfl⟩ := below
    rw [if_pos (List.prefix_append _ _), List.drop_left]
    rw [if_pos (by simp), List.append_assoc, List.drop_left, ← List.append_assoc] at stands
    exact wf _ name e stands
  · by_cases here : target = above ++ [name]
    · -- the directory itself
      have apart : ¬ source <+: above := fun way =>
        movable.outside (here ▸ way.trans (List.prefix_append _ _))
      rw [if_neg below, if_neg apart]
      exact parent above name here
    · have outside : ¬ target <+: above ++ [name] := by
        rw [List.prefix_concat_iff]
        exact not_or.mpr ⟨here, below⟩
      rw [if_neg outside] at stands
      split at stands
      · cases stands
      · rename_i apart
        have apart' : ¬ source <+: above := fun way => apart (way.trans (List.prefix_append _ _))
        rw [if_neg below, if_neg apart']
        exact wf above name e stands

/-- What has a name that leads on does not stand below a file. -/
theorem WellFormed.directory_above (wf : fs.WellFormed) {e : Entry} (stands : fs.entryAt? l = some e)
    (above : target <+: l) (other : l ≠ target) : fs.entryAt? target = some .directory := by
  obtain ⟨back, rfl⟩ := above
  cases back with
  | nil => exact absurd (by simp) other
  | cons name back => exact wf.above stands

/-- What leads to something exists. -/
theorem exists?_above (wf : fs.WellFormed) (reached : fs.Reached q) {e : Entry}
    (stands : fs.entryAt? l = some e) (above : q.location <+: l) : fs.exists? q = true := by
  have seen (found : Entry) (here : fs.entryAt? q.location = some found) : fs.exists? q = true := by
    have whole : fs.stat q = .ok found := by
      refine (stat_eq_ok wf).mpr ⟨reached.valid, here, fun ending => ?_⟩
      cases found with
      | file content mode => exact absurd here (reached.slashed ending content mode)
      | directory => rfl
    rw [exists?, whole]
    rfl
  by_cases same : l = q.location
  · exact seen e (same ▸ stands)
  · exact seen .directory (wf.directory_above stands above same)

theorem rename_reached (wf : fs.WellFormed) (done : fs.rename p q = .ok fs') : fs.Reached q := by
  cases source : fs.reach p with
  | error e => simp [rename, source, bind, Except.bind] at done
  | ok s =>
    cases target : fs.reach q with
    | error e => simp [rename, source, target, bind, Except.bind] at done
    | ok t => exact ((reach_eq_ok wf).mp target).2

theorem mem_of_entryAt? {e : Entry} (stands : fs.entryAt? l = some e) (inner : l ≠ []) : (l, e) ∈ fs.entries := by
  rw [entryAt?, if_neg inner, List.lookup_eq_some_iff] at stands
  obtain ⟨front, back, whole, -⟩ := stands
  simp [whole]

theorem entryAt?_of_mem {entry : Location × Entry} (member : entry ∈ fs.entries) :
    ∃ e, fs.entryAt? entry.1 = some e := by
  by_cases root : entry.1 = []
  · exact ⟨.directory, by rw [root, entryAt?_nil]⟩
  · rw [entryAt?, if_neg root]
    cases found : fs.entries.lookup entry.1 with
    | some e => exact ⟨e, rfl⟩
    | none => simpa using List.lookup_eq_none_iff.mp found entry member

theorem rename_directory (wf : fs.WellFormed) (stands : fs.entryAt? p.location = some .directory)
    (done : fs.rename p q = .ok fs') :
    fs' = fs ∨ Movable fs p.location q.location ∧ fs.Reached q ∧ fs' = fs.moved p.location q.location := by
  cases source : fs.reach p with
  | error e => simp [rename, source, bind, Except.bind] at done
  | ok s =>
    cases target : fs.reach q with
    | error e => simp [rename, source, target, bind, Except.bind] at done
    | ok t =>
      obtain ⟨rfl, -⟩ := (reach_eq_ok wf).mp source
      obtain ⟨rfl, reached⟩ := (reach_eq_ok wf).mp target
      simp only [rename, source, target, bind, Except.bind, stands] at done
      split at done
      case h_4 =>
        split at done
        · exact .inl (Except.ok.inj done).symm
        · rename_i apart
          split at done
          · cases done
          · rename_i outside
            split at done
            · cases done
            · rename_i childless
              refine .inr ⟨?_, reached, (Except.ok.inj done).symm⟩
              have free (entry : Location × Entry) (member : entry ∈ fs.entries)
                  (below : q.location <+: entry.1) : entry.1 = q.location := by
                by_contra other
                obtain ⟨e, there⟩ := entryAt?_of_mem member
                refine childless ⟨by simp [wf.directory_above there below other], ?_⟩
                exact List.any_eq_true.mpr ⟨entry, member, by simp [other, below]⟩
              have outside : ¬ p.location <+: q.location := by simpa using outside
              refine ⟨outside, fun root => apart ?_, free⟩
              have inner : p.location ≠ [] := fun root => outside (by simp [root])
              exact free _ (mem_of_entryAt? stands inner) (by simp [root])
      all_goals simp_all

/-- A renaming leaves everything else as it is. -/
theorem rename_leaves (wf : fs.WellFormed) (done : fs.rename p q = .ok fs') :
    fs'.WellFormed ∧ ∀ l, ¬ p.location <+: l → ¬ q.location <+: l → fs'.entryAt? l = fs.entryAt? l := by
  cases reached : fs.reach p with
  | error e => simp [rename, reached, bind, Except.bind] at done
  | ok s =>
    obtain ⟨rfl, open_⟩ := (reach_eq_ok wf).mp reached
    cases stands : fs.entryAt? p.location with
    | none =>
      cases target : fs.reach q <;> simp [rename, reached, target, bind, Except.bind, stands] at done
    | some entry =>
      cases entry with
      | file content mode =>
        have plain : ¬ p.endsWithSlash := fun ending => open_.slashed ending content mode stands
        have edited := (rename_moved wf (holds_file wf open_.valid plain stands) done).1
        refine ⟨edited.wf, fun l away away' => edited.same l ?_⟩
        have other : l ≠ p.location := fun same => away (same ▸ List.prefix_refl _)
        have other' : l ≠ q.location := fun same => away' (same ▸ List.prefix_refl _)
        simp [other, other']
      | directory =>
        obtain rfl | ⟨movable, reached', rfl⟩ := rename_directory wf stands done
        · exact ⟨wf, fun _ _ _ => rfl⟩
        · refine ⟨wf.moved movable reached'.inDirectory, fun l away away' => ?_⟩
          rw [entryAt?_moved movable, if_neg away', if_neg away]

end LinterClient.FileSystem
