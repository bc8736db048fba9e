import Mathlib.Data.List.Induction
import LinterClient.FileSystem.Basic
import LinterClient.Proofs.FilePath

/-!
What a path holds, and what each call changes about it.

In a tree where everything stands in a directory, a path holds what stands at its location. So a call
changes what a path holds only if it changes the entry at that location.
-/

namespace LinterClient

/-- A path that can lead somewhere at all. -/
structure FilePath.Valid (p : FilePath) : Prop where
  noNul : 0 ∉ p.bytes
  short : ∀ name ∈ p.location, name.length ≤ FileSystem.maxName

namespace FileSystem

variable {fs fs' : FileSystem} {p q : FilePath} {l k : Location} {e : Entry}

/-- Everything stands in a directory. -/
def WellFormed (fs : FileSystem) : Prop :=
  ∀ above name e, fs.entryAt? (above ++ [name]) = some e → fs.entryAt? above = some .directory

/-- A well-formed tree in which all but some locations have the entries that they had. -/
structure Edited (fs fs' : FileSystem) (changed : List Location) : Prop where
  wf : fs'.WellFormed
  same : ∀ l, l ∉ changed → fs'.entryAt? l = fs.entryAt? l

/-- A well-formed tree to which nothing but directories was added, at a location and above it. -/
structure Grown (fs fs' : FileSystem) (target : Location) : Prop where
  wf : fs'.WellFormed
  entries : ∀ l, fs'.entryAt? l = fs.entryAt? l ∨
    fs.entryAt? l = none ∧ fs'.entryAt? l = some .directory ∧ l <+: target

/-- A file with this content stands at a path, or nothing does. -/
def Holds (fs : FileSystem) (p : FilePath) : Option (List UInt8) → Prop
  | some content => ∃ mode, fs.stat p = .ok (.file content mode)
  | none => ∀ e, fs.stat p ≠ .ok e

/-! ## Entries -/

@[simp] theorem entryAt?_nil (fs : FileSystem) : fs.entryAt? [] = some .directory := by
  simp [entryAt?]

theorem lookup_filter_ne (entries : List (Location × Entry)) (different : k ≠ l) :
    (entries.filter (·.1 ≠ l)).lookup k = entries.lookup k := by
  induction entries with
  | nil => rfl
  | cons first rest ih =>
    obtain ⟨place, e⟩ := first
    by_cases erased : place = l
    · have missed : (k == place) = false := by simp [erased, different]
      simp only [List.filter_cons, erased, ne_eq, not_true, decide_false, Bool.false_eq_true,
        if_false, List.lookup_cons]
      rw [← erased, missed, erased]
      exact ih
    · simp only [List.filter_cons, erased, ne_eq, not_false_eq_true, decide_true, if_true,
        List.lookup_cons]
      rw [← ih]

theorem lookup_filter_self (entries : List (Location × Entry)) :
    (entries.filter (·.1 ≠ l)).lookup l = none := by
  rw [List.lookup_eq_none_iff]
  intro entry inside
  have different : entry.1 ≠ l := by simpa using (List.mem_filter.mp inside).2
  simpa using Ne.symm different

theorem entryAt?_insert_self (inner : l ≠ []) : (fs.insert l e).entryAt? l = some e := by
  simp [entryAt?, insert, inner]

theorem entryAt?_insert_ne (different : k ≠ l) : (fs.insert l e).entryAt? k = fs.entryAt? k := by
  have missed : (k == l) = false := by simpa using different
  simp only [entryAt?, insert, List.lookup_cons, missed, lookup_filter_ne _ different]

theorem entryAt?_erase_self (inner : l ≠ []) : (fs.erase l).entryAt? l = none := by
  simp only [entryAt?, erase, if_neg inner, lookup_filter_self]

theorem entryAt?_erase_ne (different : k ≠ l) : (fs.erase l).entryAt? k = fs.entryAt? k := by
  simp only [entryAt?, erase, lookup_filter_ne _ different]

/-! ## Well-formed trees -/

theorem WellFormed.above (wf : fs.WellFormed) {front back : Location} {name : List UInt8}
    (stands : fs.entryAt? (front ++ name :: back) = some e) : fs.entryAt? front = some .directory := by
  induction back using List.reverseRecOn generalizing e with
  | nil => exact wf front name e stands
  | append_singleton back last ih =>
    rw [← List.cons_append, ← List.append_assoc] at stands
    exact ih (wf _ last e stands)

/-- A file or an empty place takes any other entry that stands in a directory. -/
theorem WellFormed.insert (wf : fs.WellFormed) {above : Location} {name : List UInt8}
    (inDirectory : fs.entryAt? above = some .directory)
    (childless : fs.entryAt? (above ++ [name]) ≠ some .directory) :
    (fs.insert (above ++ [name]) e).WellFormed := by
  have inner : above ++ [name] ≠ [] := by simp
  intro place last old stands
  have parent : fs.entryAt? place = some .directory := by
    by_cases here : place ++ [last] = above ++ [name]
    · rw [(List.append_inj' here rfl).1]
      exact inDirectory
    · rw [entryAt?_insert_ne here] at stands
      exact wf place last old stands
  have other : place ≠ above ++ [name] := fun equal => childless (equal ▸ parent)
  rw [entryAt?_insert_ne other, parent]

theorem WellFormed.erase (wf : fs.WellFormed) (childless : fs.entryAt? l ≠ some .directory) :
    (fs.erase l).WellFormed := by
  intro place last old stands
  have kept : place ++ [last] ≠ l := by
    rintro rfl
    rw [entryAt?_erase_self (by simp)] at stands
    simp at stands
  rw [entryAt?_erase_ne kept] at stands
  have parent := wf place last old stands
  have other : place ≠ l := fun equal => childless (equal ▸ parent)
  rw [entryAt?_erase_ne other, parent]

theorem wellFormed_of_entries
    (h : ∀ entry ∈ fs.entries, fs.entryAt? entry.1.dropLast = some .directory) : fs.WellFormed := by
  intro above name e stands
  have inner : above ++ [name] ≠ [] := by simp
  simp only [entryAt?, if_neg inner, List.lookup_eq_some_iff] at stands
  obtain ⟨front, back, whole, -⟩ := stands
  simpa using h (above ++ [name], e) (by simp [whole])

/-! ## Reaching a path -/

/-- The ways to reach the location of a path are open. -/
structure Reached (fs : FileSystem) (p : FilePath) : Prop where
  valid : p.Valid
  inDirectory : ∀ above name, p.location = above ++ [name] → fs.entryAt? above = some .directory
  slashed : p.endsWithSlash → ∀ content mode, fs.entryAt? p.location ≠ some (.file content mode)

theorem walk_eq_ok {above rest : Location} (walked : fs.walk above rest = .ok l) :
    l = above ++ rest ∧ (∀ name ∈ rest, name.length ≤ maxName) ∧
      ∀ front name, rest = front ++ [name] → fs.entryAt? (above ++ front) = some .directory := by
  induction rest generalizing above with
  | nil =>
    simp only [walk, Except.ok.injEq] at walked
    simp [walked]
  | cons first rest ih =>
    simp only [walk] at walked
    split at walked
    · rename_i parent
      split at walked
      · simp at walked
      · rename_i bounded
        obtain ⟨whole, short, last⟩ := ih walked
        refine ⟨by simp [whole], ?_, ?_⟩
        · intro name inside
          rcases List.mem_cons.mp inside with rfl | inside
          · exact Nat.le_of_not_lt bounded
          · exact short name inside
        · intro front name ending
          cases front with
          | nil => simpa using parent
          | cons head tail =>
            simp only [List.cons_append, List.cons.injEq] at ending
            have below := last tail name ending.2
            simpa [ending.1] using below
    · simp at walked
    · simp at walked

theorem walk_ok {above rest : Location} (short : ∀ name ∈ rest, name.length ≤ maxName)
    (open_ : ∀ front name back, rest = front ++ name :: back →
      fs.entryAt? (above ++ front) = some .directory) :
    fs.walk above rest = .ok (above ++ rest) := by
  induction rest generalizing above with
  | nil => simp [walk]
  | cons first rest ih =>
    have parent := open_ [] first rest rfl
    rw [List.append_nil] at parent
    have bounded := Nat.not_lt.mpr (short first List.mem_cons_self)
    simp only [walk, parent, if_neg bounded]
    rw [ih (fun name inside => short name (List.mem_cons_of_mem first inside))]
    · simp
    · intro front name back ending
      simpa using open_ (first :: front) name back (by simp [ending])

theorem reach_eq_ok (wf : fs.WellFormed) : fs.reach p = .ok l ↔ l = p.location ∧ fs.Reached p := by
  constructor
  · intro reached
    simp only [reach] at reached
    split at reached
    · simp at reached
    · rename_i noNul
      cases walked : fs.walk [] p.location with
      | error e => simp [walked, bind, Except.bind] at reached
      | ok place =>
        obtain ⟨whole, short, last⟩ := walk_eq_ok walked
        rw [List.nil_append] at whole
        subst whole
        have valid : p.Valid := ⟨by simpa using noNul, short⟩
        have above : ∀ front name, p.location = front ++ [name] →
            fs.entryAt? front = some .directory := by simpa using last
        simp only [walked, bind, Except.bind] at reached
        split at reached
        · rename_i content mode file
          split at reached
          · simp at reached
          · rename_i plain
            simp only [Except.ok.injEq] at reached
            exact ⟨reached.symm, valid, above, fun slashed => absurd slashed plain⟩
        · rename_i other
          simp only [Except.ok.injEq] at reached
          exact ⟨reached.symm, valid, above, fun _ content mode => other content mode⟩
  · rintro ⟨rfl, valid, inDirectory, slashed⟩
    have walked : fs.walk [] p.location = .ok p.location := by
      refine walk_ok valid.short ?_
      intro front name back whole
      rw [List.nil_append]
      rcases List.eq_nil_or_concat back with rfl | ⟨middle, last, rfl⟩
      · exact inDirectory front name whole
      · have parent := inDirectory (front ++ name :: middle) last (by simp [whole])
        exact wf.above parent
    have noNul : p.bytes.contains 0 = false := by simpa using valid.noNul
    simp only [reach, noNul, Bool.false_eq_true, if_false, walked, bind, Except.bind]
    split
    · rename_i content mode file
      rw [if_neg fun ending => slashed ending content mode file]
    · rfl

theorem stat_eq_ok (wf : fs.WellFormed) :
    fs.stat p = .ok e ↔ p.Valid ∧ fs.entryAt? p.location = some e ∧
      (p.endsWithSlash → e = .directory) := by
  constructor
  · intro seen
    cases reached : fs.reach p with
    | error e => simp [stat, reached, bind, Except.bind] at seen
    | ok place =>
      obtain ⟨rfl, valid, -, slashed⟩ := (reach_eq_ok wf).mp reached
      simp only [stat, reached, bind, Except.bind] at seen
      split at seen
      · rename_i old stands
        simp only [Except.ok.injEq] at seen
        subst seen
        refine ⟨valid, stands, fun ending => ?_⟩
        cases old with
        | file content mode => exact absurd stands (slashed ending content mode)
        | directory => rfl
      · simp at seen
  · rintro ⟨valid, stands, slashed⟩
    have reached : fs.reach p = .ok p.location := by
      refine (reach_eq_ok wf).mpr ⟨rfl, valid, ?_, ?_⟩
      · intro above name whole
        exact wf above name e (whole ▸ stands)
      · intro ending content mode file
        rw [stands, slashed ending] at file
        simp at file
    simp [stat, reached, bind, Except.bind, stands]

/-! ## What a path holds -/

theorem holds_of_isDirectory (h : fs.isDirectory p = false) : ∃ x, fs.Holds p x := by
  cases seen : fs.stat p with
  | error e => exact ⟨none, fun e' other => by simp [seen] at other⟩
  | ok entry =>
    cases entry with
    | file content mode => exact ⟨some content, mode, seen⟩
    | directory => simp [isDirectory, seen] at h

theorem Holds.exists?_eq {x : Option (List UInt8)} (h : fs.Holds p x) :
    fs.exists? p = x.isSome := by
  cases x with
  | some content =>
    obtain ⟨mode, seen⟩ := h
    simp [exists?, seen, Except.toBool]
  | none =>
    cases seen : fs.stat p with
    | error e => simp [exists?, seen, Except.toBool]
    | ok entry => exact absurd seen (h entry)

theorem Holds.read_eq {x : Option (List UInt8)} (h : fs.Holds p x) :
    (fs.read p).toOption = x := by
  cases x with
  | some content =>
    obtain ⟨mode, seen⟩ := h
    simp [read, seen, bind, Except.bind, Except.toOption]
  | none =>
    cases seen : fs.stat p with
    | error e => simp [read, seen, bind, Except.bind, Except.toOption]
    | ok entry => exact absurd seen (h entry)

theorem read_eq_some {content : List UInt8} :
    (fs.read p).toOption = some content ↔ fs.Holds p (some content) := by
  constructor
  · intro known
    cases seen : fs.stat p with
    | error e => simp [read, seen, bind, Except.bind, Except.toOption] at known
    | ok entry =>
      cases entry with
      | file other mode =>
        simp only [read, seen, bind, Except.bind, Except.toOption, Option.some.injEq] at known
        exact ⟨mode, known ▸ seen⟩
      | directory => simp [read, seen, bind, Except.bind, Except.toOption] at known
  · exact fun holds => holds.read_eq

theorem Holds.readText_eq {content : List UInt8} (h : fs.Holds p (some content)) :
    fs.readText p = match Utf8.decode? content with
      | some text => .ok text
      | none => .error .notText := by
  obtain ⟨mode, seen⟩ := h
  have reads : fs.read p = .ok content := by rw [read, seen]; rfl
  rw [readText, reads]
  rfl

theorem Holds.readText_missing (h : fs.Holds p none) : ∃ e, fs.readText p = .error e := by
  cases seen : fs.stat p with
  | error e => exact ⟨e, by simp [readText, read, seen, bind, Except.bind]⟩
  | ok entry => exact absurd seen (h entry)

theorem Holds.file (wf : fs.WellFormed) {content : List UInt8} (h : fs.Holds p (some content)) :
    p.Valid ∧ ¬ p.endsWithSlash ∧ ∃ mode, fs.entryAt? p.location = some (.file content mode) := by
  obtain ⟨mode, seen⟩ := h
  obtain ⟨valid, stands, slashed⟩ := (stat_eq_ok wf).mp seen
  exact ⟨valid, fun ending => by simp at slashed; simp [slashed] at ending, mode, stands⟩

theorem holds_file (wf : fs.WellFormed) {content : List UInt8} {mode : Nat} (valid : p.Valid)
    (plain : ¬ p.endsWithSlash) (stands : fs.entryAt? p.location = some (.file content mode)) :
    fs.Holds p (some content) :=
  ⟨mode, (stat_eq_ok wf).mpr ⟨valid, stands, fun ending => absurd ending plain⟩⟩

theorem holds_none (wf : fs.WellFormed) (empty : fs.entryAt? p.location = none) :
    fs.Holds p none := by
  intro e seen
  have stands := ((stat_eq_ok wf).mp seen).2.1
  simp [empty] at stands

theorem Holds.frame (wf : fs.WellFormed) (wf' : fs'.WellFormed)
    (same : fs'.entryAt? p.location = fs.entryAt? p.location) {x : Option (List UInt8)}
    (h : fs.Holds p x) : fs'.Holds p x := by
  have seen : ∀ e, fs'.stat p = .ok e ↔ fs.stat p = .ok e := by
    intro e
    rw [stat_eq_ok wf, stat_eq_ok wf', same]
  cases x with
  | some content =>
    obtain ⟨mode, before⟩ := h
    exact ⟨mode, (seen _).mpr before⟩
  | none => exact fun e after => h e ((seen e).mp after)

theorem Edited.holds {changed : List Location} (edited : fs.Edited fs' changed)
    (wf : fs.WellFormed) (other : p.location ∉ changed) {x : Option (List UInt8)}
    (h : fs.Holds p x) : fs'.Holds p x :=
  h.frame wf edited.wf (edited.same _ other)

theorem read_congr (same : ∀ content, fs'.Holds p (some content) ↔ fs.Holds p (some content)) :
    (fs'.read p).toOption = (fs.read p).toOption :=
  Option.ext fun content => by rw [read_eq_some, read_eq_some, same]

theorem Edited.read_eq {changed : List Location} (edited : fs.Edited fs' changed)
    (wf : fs.WellFormed) (other : p.location ∉ changed) :
    (fs'.read p).toOption = (fs.read p).toOption :=
  read_congr fun _ =>
    ⟨fun after => after.frame edited.wf wf (edited.same _ other).symm, edited.holds wf other⟩

theorem read_directory (wf : fs.WellFormed) (stands : fs.entryAt? p.location = some .directory) :
    (fs.read p).toOption = none := by
  cases seen : (fs.read p).toOption with
  | none => rfl
  | some content =>
    obtain ⟨-, -, mode, file⟩ := (read_eq_some.mp seen).file wf
    simp [stands] at file

/-! ## What calls change -/

theorem location_inner (h : fs.entryAt? p.location ≠ some .directory) : p.location ≠ [] := by
  intro root
  simp [root] at h

theorem insert_file (content : List UInt8) (mode : Nat) (wf : fs.WellFormed)
    (reached : fs.Reached p) (plain : ¬ p.endsWithSlash)
    (childless : fs.entryAt? p.location ≠ some .directory) :
    fs.Edited (fs.insert p.location (.file content mode)) [p.location] ∧
      (fs.insert p.location (.file content mode)).Holds p (some content) := by
  rcases List.eq_nil_or_concat p.location with root | ⟨above, name, whole⟩
  · exact absurd root (location_inner childless)
  · rw [List.concat_eq_append] at whole
    have wf' : (fs.insert p.location (.file content mode)).WellFormed := by
      rw [whole] at childless ⊢
      exact wf.insert (reached.inDirectory above name whole) childless
    refine ⟨⟨wf', fun l other => entryAt?_insert_ne (by simpa using other)⟩, ?_⟩
    exact holds_file wf' reached.valid plain (entryAt?_insert_self (location_inner childless))

/-- A file is moved to any place that is open to it and where no directory stands. -/
theorem rename_file {content : List UInt8} (wf : fs.WellFormed) (h : fs.Holds p (some content))
    (open_ : fs.Reached q) (plain : ¬ q.endsWithSlash)
    (childless : fs.entryAt? q.location ≠ some .directory) : ∃ fs', fs.rename p q = .ok fs' := by
  obtain ⟨valid, unslashed, mode, stands⟩ := h.file wf
  have source : fs.reach p = .ok p.location := by
    refine (reach_eq_ok wf).mpr ⟨rfl, valid, ?_, fun ending => absurd ending unslashed⟩
    intro above name whole
    exact wf above name _ (whole ▸ stands)
  have target : fs.reach q = .ok q.location := (reach_eq_ok wf).mpr ⟨rfl, open_⟩
  simp only [rename, source, target, bind, Except.bind, stands, if_neg plain, if_neg childless]
  exact ⟨_, rfl⟩

theorem createFile_ok (wf : fs.WellFormed) (plain : ¬ p.endsWithSlash)
    (done : fs.createFile p = .ok fs') :
    fs.Edited fs' [p.location] ∧ fs'.Holds p (some []) ∧ fs.entryAt? p.location = none := by
  cases reached : fs.reach p with
  | error e => simp [createFile, reached, bind, Except.bind] at done
  | ok l =>
    obtain ⟨rfl, open_⟩ := (reach_eq_ok wf).mp reached
    simp only [createFile, reached, bind, Except.bind] at done
    split at done
    · simp at done
    · rename_i empty
      simp only [Except.ok.injEq] at done
      subst done
      have made := insert_file [] 0o600 wf open_ plain (by simp [empty])
      exact ⟨made.1, made.2, empty⟩

theorem append_ok (wf : fs.WellFormed) {content bytes : List UInt8}
    (h : fs.Holds p (some content)) (done : fs.append p bytes = .ok fs') :
    fs.Edited fs' [p.location] ∧ fs'.Holds p (some (content ++ bytes)) := by
  obtain ⟨valid, plain, mode, stands⟩ := h.file wf
  cases reached : fs.reach p with
  | error e => simp [append, reached, bind, Except.bind] at done
  | ok l =>
    obtain ⟨rfl, open_⟩ := (reach_eq_ok wf).mp reached
    simp only [append, reached, bind, Except.bind, stands, Except.ok.injEq] at done
    subst done
    exact insert_file _ _ wf open_ plain (by simp [stands])

theorem setMode_ok (wf : fs.WellFormed) {content : List UInt8} {mode : Nat}
    (h : fs.Holds p (some content)) (done : fs.setMode p mode = .ok fs') :
    fs.Edited fs' [p.location] ∧ fs'.Holds p (some content) := by
  obtain ⟨valid, plain, old, stands⟩ := h.file wf
  cases reached : fs.reach p with
  | error e => simp [setMode, reached, bind, Except.bind] at done
  | ok l =>
    obtain ⟨rfl, open_⟩ := (reach_eq_ok wf).mp reached
    simp only [setMode, reached, bind, Except.bind, stands, Except.ok.injEq] at done
    subst done
    exact insert_file _ _ wf open_ plain (by simp [stands])

theorem remove_ok (wf : fs.WellFormed) (done : fs.remove p = .ok fs') :
    fs.Edited fs' [p.location] ∧ fs'.Holds p none ∧ fs.entryAt? p.location ≠ some .directory := by
  cases reached : fs.reach p with
  | error e => simp [remove, reached, bind, Except.bind] at done
  | ok l =>
    obtain ⟨rfl, open_⟩ := (reach_eq_ok wf).mp reached
    simp only [remove, reached, bind, Except.bind] at done
    split at done
    · rename_i content mode stands
      have childless : fs.entryAt? p.location ≠ some .directory := by simp [stands]
      simp only [Except.ok.injEq] at done
      subst done
      refine ⟨⟨wf.erase childless, fun l other => entryAt?_erase_ne (by simpa using other)⟩, ?_,
        childless⟩
      exact holds_none (wf.erase childless) (entryAt?_erase_self (location_inner childless))
    · simp at done
    · simp at done

/-- A file that is moved leaves its place empty, unless that is where it is moved to. -/
theorem rename_moved (wf : fs.WellFormed) {content : List UInt8} (h : fs.Holds p (some content))
    (done : fs.rename p q = .ok fs') :
    fs.Edited fs' [p.location, q.location] ∧ (p.location ≠ q.location → fs'.Holds p none) ∧
      fs'.Holds q (some content) ∧ fs.entryAt? q.location ≠ some .directory := by
  obtain ⟨-, -, mode, stands⟩ := h.file wf
  cases source : fs.reach p with
  | error e => simp [rename, source, bind, Except.bind] at done
  | ok s =>
    cases target : fs.reach q with
    | error e => simp [rename, source, target, bind, Except.bind] at done
    | ok t =>
      obtain ⟨rfl, -⟩ := (reach_eq_ok wf).mp source
      obtain ⟨rfl, open_⟩ := (reach_eq_ok wf).mp target
      simp only [rename, source, target, bind, Except.bind, stands] at done
      split at done
      · simp at done
      · rename_i plain
        split at done
        · simp at done
        · rename_i childless
          simp only [Except.ok.injEq] at done
          subst done
          have file : fs.entryAt? p.location ≠ some .directory := by simp [stands]
          have wf' := wf.erase file
          have kept : (fs.erase p.location).entryAt? q.location ≠ some .directory := by
            by_cases same : q.location = p.location
            · rw [same, entryAt?_erase_self (location_inner file)]
              simp
            · rw [entryAt?_erase_ne same]
              exact childless
          have reached : (fs.erase p.location).Reached q := by
            refine ⟨open_.valid, ?_, fun ending => absurd ending plain⟩
            intro above name whole
            have parent := open_.inDirectory above name whole
            have other : above ≠ p.location := fun equal => file (equal ▸ parent)
            rw [entryAt?_erase_ne other, parent]
          obtain ⟨edited, holds⟩ := insert_file content mode wf' reached plain kept
          refine ⟨⟨edited.wf, ?_⟩, fun apart => ?_, holds, childless⟩
          · intro l other
            simp only [List.mem_cons, List.not_mem_nil, or_false, not_or] at other
            rw [edited.same l (by simpa using other.2), entryAt?_erase_ne other.1]
          · refine holds_none edited.wf ?_
            rw [edited.same _ (by simpa using apart), entryAt?_erase_self (location_inner file)]

theorem rename_ok (wf : fs.WellFormed) {content : List UInt8} (h : fs.Holds p (some content))
    (apart : p.location ≠ q.location) (done : fs.rename p q = .ok fs') :
    fs.Edited fs' [p.location, q.location] ∧ fs'.Holds p none ∧ fs'.Holds q (some content) ∧
      fs.entryAt? q.location ≠ some .directory := by
  obtain ⟨edited, gone, holds, childless⟩ := rename_moved wf h done
  exact ⟨edited, gone apart, holds, childless⟩

theorem rename_self (wf : fs.WellFormed) (stands : fs.entryAt? p.location = some .directory)
    (done : fs.rename p p = .ok fs') : fs' = fs := by
  cases reached : fs.reach p with
  | error e => simp [rename, reached, bind, Except.bind] at done
  | ok l =>
    obtain ⟨rfl, -⟩ := (reach_eq_ok wf).mp reached
    simp only [rename, reached, bind, Except.bind, stands, if_true, Except.ok.injEq] at done
    exact done.symm

theorem createDirectories_go {above rest : Location} (wf : fs.WellFormed)
    (parent : fs.entryAt? above = some .directory)
    (done : createDirectories.go fs above rest = .ok fs') : fs.Grown fs' (above ++ rest) := by
  induction rest generalizing fs above with
  | nil =>
    simp only [createDirectories.go, Except.ok.injEq] at done
    subst done
    exact ⟨wf, fun l => .inl rfl⟩
  | cons name rest ih =>
    simp only [createDirectories.go] at done
    split at done
    · simp at done
    · have whole : above ++ name :: rest = (above ++ [name]) ++ rest := by simp
      split at done
      · rename_i stands
        rw [whole]
        exact ih wf stands done
      · simp at done
      · rename_i empty
        have childless : fs.entryAt? (above ++ [name]) ≠ some .directory := by simp [empty]
        have wf' := wf.insert (e := .directory) parent childless
        obtain ⟨wf'', entries⟩ := ih wf' (entryAt?_insert_self (by simp)) done
        refine ⟨wf'', fun l => ?_⟩
        rw [whole]
        by_cases here : l = above ++ [name]
        · subst here
          have made : (fs.insert (above ++ [name]) .directory).entryAt? (above ++ [name]) =
            some .directory := entryAt?_insert_self (by simp)
          rcases entries (above ++ [name]) with same | ⟨none_, -⟩
          · exact .inr ⟨empty, same.trans made, List.prefix_append _ _⟩
          · simp [made] at none_
        · rcases entries l with same | added
          · exact .inl (same.trans (entryAt?_insert_ne here))
          · exact .inr ⟨(entryAt?_insert_ne here).symm.trans added.1, added.2⟩

theorem createDirectories_ok (wf : fs.WellFormed) (done : fs.createDirectories p = .ok fs') :
    fs.Grown fs' p.location := by
  simp only [createDirectories] at done
  split at done
  · simp at done
  · simpa using createDirectories_go wf (entryAt?_nil fs) done

theorem Grown.holds (grown : fs.Grown fs' l) (wf : fs.WellFormed) (beside : ¬ p.location <+: l)
    {x : Option (List UInt8)} (h : fs.Holds p x) : fs'.Holds p x := by
  refine h.frame wf grown.wf ?_
  rcases grown.entries p.location with same | ⟨-, -, inside⟩
  · exact same
  · exact absurd inside beside

theorem Grown.stat_file (grown : fs.Grown fs' l) (wf : fs.WellFormed) {content : List UInt8}
    {mode : Nat} : fs'.stat p = .ok (.file content mode) ↔ fs.stat p = .ok (.file content mode) := by
  rw [stat_eq_ok wf, stat_eq_ok grown.wf]
  rcases grown.entries p.location with same | ⟨empty, made, -⟩
  · rw [same]
  · simp [empty, made]

theorem Grown.read_eq (grown : fs.Grown fs' l) (wf : fs.WellFormed) :
    (fs'.read p).toOption = (fs.read p).toOption :=
  read_congr fun _ => exists_congr fun _ => grown.stat_file wf

end FileSystem

end LinterClient
