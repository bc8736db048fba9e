import LinterClient.AtomicWrite
import LinterClient.Proofs.Text.Utf8

/-!
Where paths lead.

A path leads where its steps lead one after the other, whatever separators and dots stand between them.
So the neighbours of a file share its directory, and differ from it by their names.
-/

namespace LinterClient.FilePath

/-- The step that one piece of a path stands for. -/
def step? (piece : List UInt8) : Option Component :=
  if piece = [] ∨ piece = [dot] then none
  else if piece = [dot, dot] then some .parent
  else some (.normal piece)

/-- The steps of a path, without the dot at its start. -/
def steps (p : FilePath) : List Component :=
  (splitBytes slash p.bytes).filterMap step?

/-- The names from the root to where steps lead. -/
def follow (steps : List Component) : Location :=
  (steps.foldl (foldStep true) []).reverse.map Component.bytes

/-- A name that a file can have. -/
structure PlainName (name : List UInt8) : Prop where
  noSlash : slash ∉ name
  isName : step? name = some (.normal name)

/-! ## Pieces -/

theorem splitBytes_ne_nil (separator : UInt8) (bytes : List UInt8) :
    splitBytes separator bytes ≠ [] := by
  cases bytes with
  | nil => simp [splitBytes]
  | cons b rest =>
    simp only [splitBytes]
    split
    · simp
    · split <;> simp

theorem splitBytes_append (separator : UInt8) (front back : List UInt8) :
    splitBytes separator (front ++ separator :: back) =
      splitBytes separator front ++ splitBytes separator back := by
  induction front with
  | nil => simp [splitBytes]
  | cons b rest ih =>
    simp only [List.cons_append, splitBytes, ih]
    split
    · simp
    · cases h : splitBytes separator rest with
      | nil => exact absurd h (splitBytes_ne_nil separator rest)
      | cons piece more => simp

theorem splitBytes_whole {separator : UInt8} {piece : List UInt8} (h : separator ∉ piece) :
    splitBytes separator piece = [piece] := by
  induction piece with
  | nil => simp [splitBytes]
  | cons b rest ih =>
    have different : b ≠ separator := fun equal => h (by simp [equal])
    simp only [splitBytes, if_neg different, ih fun inside => h (List.mem_cons_of_mem b inside)]

theorem splitBytes_noSeparator {separator : UInt8} {bytes piece : List UInt8}
    (h : piece ∈ splitBytes separator bytes) : separator ∉ piece := by
  induction bytes generalizing piece with
  | nil =>
    simp only [splitBytes, List.mem_singleton] at h
    simp [h]
  | cons b rest ih =>
    by_cases equal : b = separator
    · simp only [splitBytes, if_pos equal, List.mem_cons] at h
      rcases h with rfl | h
      · simp
      · exact ih h
    · simp only [splitBytes, if_neg equal] at h
      cases split : splitBytes separator rest with
      | nil => exact absurd split (splitBytes_ne_nil separator rest)
      | cons first more =>
        rw [split] at h ih
        rcases List.mem_cons.mp h with rfl | h
        · have clean := ih List.mem_cons_self
          simp [clean, Ne.symm equal]
        · exact ih (List.mem_cons_of_mem first h)

theorem splitBytes_intercalate {separator : UInt8} {names : List (List UInt8)}
    (nonempty : names ≠ []) (clean : ∀ name ∈ names, separator ∉ name) :
    splitBytes separator ([separator].intercalate names) = names := by
  induction names with
  | nil => exact absurd rfl nonempty
  | cons name rest ih =>
    have whole := splitBytes_whole (clean name List.mem_cons_self)
    cases rest with
    | nil => simpa [List.intercalate] using whole
    | cons next more =>
      have later := ih (by simp) fun other h => clean other (List.mem_cons_of_mem name h)
      rw [List.intercalate_cons_cons, List.append_assoc, List.singleton_append,
        splitBytes_append, whole, later]
      rfl

/-! ## Steps -/

theorem filterMap_components (piece : List (List UInt8)) (start : Nat) :
    ((piece.zipIdx (start + 1)).filterMap fun (piece, index) =>
      if piece = [] then none
      else if piece = [dot] then
        if index = 0 then some Component.current else none
      else if piece = [dot, dot] then some .parent
      else some (.normal piece)) = piece.filterMap step? := by
  induction piece generalizing start with
  | nil => rfl
  | cons first rest ih =>
    simp only [List.zipIdx_cons, List.filterMap_cons, ih, step?]
    by_cases empty : first = []
    · simp [empty]
    · by_cases single : first = [dot]
      · simp [single]
      · by_cases double : first = [dot, dot] <;> simp [empty, single, double]

/-- Only a dot at the start is a component without being a step. -/
theorem components_eq (p : FilePath) :
    p.components = p.steps ∨ p.components = .current :: p.steps := by
  unfold components steps
  cases h : splitBytes slash p.bytes with
  | nil => exact absurd h (splitBytes_ne_nil slash p.bytes)
  | cons first rest =>
    simp only [List.zipIdx_cons, List.filterMap_cons, filterMap_components, step?]
    by_cases empty : first = []
    · simp [empty]
    · by_cases single : first = [dot]
      · simp [single]
      · by_cases double : first = [dot, dot] <;> simp [empty, single, double]

theorem components_of_slash (bytes : List UInt8) :
    (FilePath.mk (slash :: bytes)).components = (FilePath.mk bytes).steps := by
  simp only [components, steps, splitBytes, if_pos, List.zipIdx_cons, List.filterMap_cons]
  exact filterMap_components _ 0

theorem steps_normal {p : FilePath} {name : List UInt8} (h : .normal name ∈ p.steps) :
    PlainName name := by
  obtain ⟨piece, inside, isStep⟩ := List.mem_filterMap.mp h
  have equal : piece = name := by
    simp only [step?] at isStep
    split at isStep
    · simp at isStep
    · split at isStep <;> simp_all
  subst equal
  exact ⟨splitBytes_noSeparator inside, isStep⟩

theorem steps_current (p : FilePath) : .current ∉ p.steps := by
  intro h
  obtain ⟨piece, -, isStep⟩ := List.mem_filterMap.mp h
  simp only [step?] at isStep
  split at isStep
  · simp at isStep
  · split at isStep <;> simp at isStep

theorem filterMap_names {names : List (List UInt8)} (plain : ∀ name ∈ names, PlainName name) :
    names.filterMap step? = names.map .normal := by
  induction names with
  | nil => rfl
  | cons first rest ih =>
    rw [List.filterMap_cons, (plain first List.mem_cons_self).isName, List.map_cons,
      ih fun name h => plain name (List.mem_cons_of_mem first h)]

theorem steps_ofNames {names : List (List UInt8)} (plain : ∀ name ∈ names, PlainName name) :
    (FilePath.mk ([slash].intercalate names)).steps = names.map .normal := by
  cases names with
  | nil => simp [steps, splitBytes, List.intercalate, step?]
  | cons first rest =>
    unfold steps
    rw [splitBytes_intercalate (by simp) fun name h => (plain name h).noSlash]
    exact filterMap_names plain

/-- Names only: what folding leaves of the steps of a path. -/
theorem foldl_foldStep_normal (path : List Component) (seen : List Component)
    (names : ∀ c ∈ seen, ∃ name, c = .normal name ∧ PlainName name)
    (plain : ∀ name, .normal name ∈ path → PlainName name) :
    ∀ c ∈ path.foldl (foldStep true) seen, ∃ name, c = .normal name ∧ PlainName name := by
  induction path generalizing seen with
  | nil => exact names
  | cons first rest ih =>
    refine ih _ ?_ fun name h => plain name (List.mem_cons_of_mem first h)
    cases first with
    | current => exact names
    | normal name =>
      intro c inside
      rcases List.mem_cons.mp inside with rfl | inside
      · exact ⟨name, rfl, plain name List.mem_cons_self⟩
      · exact names c inside
    | parent =>
      intro c inside
      simp only [foldStep] at inside
      split at inside
      · exact names c (List.mem_cons_of_mem _ inside)
      · exact names c (by simpa using inside)

theorem follow_plain (p : FilePath) : ∀ name ∈ follow p.steps, PlainName name := by
  intro name h
  obtain ⟨c, inside, rfl⟩ := List.mem_map.mp h
  obtain ⟨name, rfl, plain⟩ := foldl_foldStep_normal p.steps [] (by simp)
    (fun _ => steps_normal) c (List.mem_reverse.mp inside)
  exact plain

/-- A path leads where its steps lead. -/
theorem location_eq (p : FilePath) : p.location = follow p.steps := by
  have bytes : ∀ names : Location, (names.map Component.normal).map Component.bytes = names :=
    fun names => by simp [Function.comp_def, Component.bytes]
  have absolute : (FilePath.mk (slash :: p.bytes)).isAbsolute = true := by simp [isAbsolute]
  have folded : (FilePath.mk (slash :: p.bytes)).normalize =
      ⟨slash :: [slash].intercalate (follow p.steps)⟩ := by
    simp only [normalize, absolute, components_of_slash, ofComponents, if_true, follow]
    rfl
  rw [location, folded, components_of_slash, steps_ofNames (follow_plain p), bytes]

theorem follow_append_normal (path : List Component) (name : List UInt8) :
    follow (path ++ [.normal name]) = follow path ++ [name] := by
  simp [follow, foldStep, Component.bytes]

theorem follow_append_parent (path : List Component) :
    follow (path ++ [.parent]) <+: follow path := by
  simp only [follow, List.foldl_append, List.foldl_cons, List.foldl_nil]
  cases path.foldl (foldStep true) [] with
  | nil => simp [foldStep]
  | cons last rest => cases last <;> simp [foldStep]

/-! ## Joining -/

theorem steps_join {directory path : FilePath} (relative : path.isAbsolute = false) :
    (directory.join path).steps = directory.steps ++ path.steps := by
  have start : (FilePath.mk []).steps = [] := by simp [steps, splitBytes, step?]
  simp only [join, relative, Bool.false_eq_true, if_false]
  by_cases empty : directory.bytes = []
  · simp [empty, steps, splitBytes, step?]
  by_cases slashed : directory.endsWithSlash
  · have ending : directory.bytes = directory.bytes.dropLast ++ [slash] := by
      have last := List.getLast?_eq_some_iff.mp (of_decide_eq_true slashed)
      obtain ⟨front, whole⟩ := last
      simp [whole]
    rw [if_pos (Or.inr slashed)]
    unfold steps
    simp only
    rw [ending, List.append_assoc, List.singleton_append, splitBytes_append, splitBytes_append]
    simp [splitBytes, step?]
  · rw [if_neg (by simp [empty, slashed])]
    simp [steps, splitBytes_append]

theorem PlainName.relative {name : List UInt8} (plain : PlainName name) :
    (FilePath.mk name).isAbsolute = false := by
  cases name with
  | nil => simp [isAbsolute]
  | cons b rest =>
    have different : b ≠ slash := fun equal => plain.noSlash (by simp [equal])
    simp [isAbsolute, different]

theorem PlainName.steps {name : List UInt8} (plain : PlainName name) :
    (FilePath.mk name).steps = [.normal name] := by
  simp [FilePath.steps, splitBytes_whole plain.noSlash, plain.isName]

theorem location_join {directory : FilePath} {name : List UInt8} (plain : PlainName name) :
    (directory.join ⟨name⟩).location = directory.location ++ [name] := by
  rw [location_eq, steps_join plain.relative, plain.steps, follow_append_normal, ← location_eq]

theorem PlainName.ne_nil {name : List UInt8} (plain : PlainName name) : name ≠ [] := by
  rintro rfl
  have isName := plain.isName
  simp [step?] at isName

theorem endsWithSlash_join {directory : FilePath} {name : List UInt8} (plain : PlainName name) :
    (directory.join ⟨name⟩).endsWithSlash = false := by
  have last : name.getLast? ≠ some slash :=
    fun ending => plain.noSlash (List.mem_of_getLast? ending)
  have behind : ∀ front : List UInt8, (front ++ name).getLast? ≠ some slash := by
    intro front
    simp [plain.ne_nil, last]
  simp only [join, plain.relative, Bool.false_eq_true, if_false]
  split
  · simpa [endsWithSlash] using behind directory.bytes
  · simpa [endsWithSlash] using behind (directory.bytes ++ [slash])

/-! ## Neighbours -/

section Neighbours

open AtomicWrite (backup directory)

variable {p : FilePath} {name : List UInt8}

theorem steps_of_components {above : List Component} {last : Component}
    (h : p.components = above ++ [last]) (step : last ≠ .current) :
    p.steps = above.filter (· ≠ .current) ++ [last] := by
  have noneCurrent : p.steps.filter (· ≠ .current) = p.steps :=
    List.filter_eq_self.mpr fun c inside => by
      have different : c ≠ .current := fun equal => steps_current p (equal ▸ inside)
      simpa using different
  have kept : p.components.filter (· ≠ .current) = p.steps := by
    rcases components_eq p with whole | whole <;> rw [whole]
    · exact noneCurrent
    · simpa using noneCurrent
  rw [← kept, h]
  simp [step]

theorem components_plain (h : .normal name ∈ p.components) : PlainName name := by
  rcases components_eq p with whole | whole <;> rw [whole] at h
  · exact steps_normal h
  · exact steps_normal (by simpa using h)

theorem filterMap_bytes {path : List Component}
    (plain : ∀ name, .normal name ∈ path → PlainName name) :
    (path.map Component.bytes).filterMap step? = path.filter (· ≠ .current) := by
  induction path with
  | nil => rfl
  | cons first rest ih =>
    have later := ih fun name h => plain name (List.mem_cons_of_mem first h)
    rw [List.map_cons, List.filterMap_cons, List.filter_cons, later]
    cases first with
    | current => simp [Component.bytes, step?]
    | parent => simp [Component.bytes, step?]
    | normal name => simp [Component.bytes, (plain name List.mem_cons_self).isName]

theorem bytes_noSlash {path : List Component}
    (plain : ∀ name, .normal name ∈ path → PlainName name) :
    ∀ name ∈ path.map Component.bytes, slash ∉ name := by
  intro bytes h
  obtain ⟨c, inside, rfl⟩ := List.mem_map.mp h
  cases c with
  | current => decide
  | parent => decide
  | normal name => exact (plain name inside).noSlash

theorem steps_ofComponents {path : List Component} (absolute : Bool)
    (plain : ∀ name, .normal name ∈ path → PlainName name) :
    (ofComponents absolute (path.map Component.bytes)).steps = path.filter (· ≠ .current) := by
  have relative : (FilePath.mk ([slash].intercalate (path.map Component.bytes))).steps =
      path.filter (· ≠ .current) := by
    cases path with
    | nil => simp [steps, splitBytes, List.intercalate, step?]
    | cons first rest =>
      unfold steps
      rw [splitBytes_intercalate (by simp) (bytes_noSlash plain), filterMap_bytes plain]
  cases absolute with
  | false => exact relative
  | true =>
    rw [← relative]
    simp [steps, ofComponents, splitBytes, step?]

theorem encode_dot : Utf8.encode "." = [dot] :=
  Utf8.encode_ofList ['.'] (by simp)

/-- The directory of a file has the steps above the last one. -/
theorem steps_directory {above : List Component} {last : Component}
    (h : p.components = above ++ [last]) :
    (directory p).steps = above.filter (· ≠ .current) := by
  have plain : ∀ name, .normal name ∈ above → PlainName name :=
    fun name inside => components_plain (p := p) (by rw [h]; exact List.mem_append_left _ inside)
  have parent : p.parent? = some (ofComponents p.isAbsolute (above.map Component.bytes)) := by
    simp [parent?, h]
  have known := steps_ofComponents p.isAbsolute plain
  simp only [directory, parent]
  split
  · rename_i empty
    rw [← known]
    generalize ofComponents p.isAbsolute (above.map Component.bytes) = d at empty
    cases d
    subst empty
    rw [ofString, encode_dot]
    decide
  · exact known

theorem components_named (named : p.fileName? = some name) :
    ∃ above, p.components = above ++ [.normal name] := by
  simp only [fileName?] at named
  split at named
  · rename_i last ending
    obtain ⟨above, whole⟩ := List.getLast?_eq_some_iff.mp ending
    simp only [Option.some.injEq] at named
    exact ⟨above, named ▸ whole⟩
  · simp at named

theorem fileName?_join {directory : FilePath} (plain : PlainName name) :
    (directory.join ⟨name⟩).fileName? = some name := by
  have steps : (directory.join ⟨name⟩).steps = directory.steps ++ [.normal name] := by
    rw [steps_join plain.relative, plain.steps]
  rcases components_eq (directory.join ⟨name⟩) with whole | whole
  · simp [fileName?, whole, steps]
  · rw [steps, ← List.cons_append] at whole
    simp only [fileName?, whole, List.getLast?_concat]

theorem location_named (named : p.fileName? = some name) :
    p.location = (directory p).location ++ [name] := by
  obtain ⟨above, whole⟩ := components_named named
  rw [location_eq, location_eq, steps_of_components whole (by simp), steps_directory whole,
    follow_append_normal]

theorem plain_named (named : p.fileName? = some name) : PlainName name := by
  obtain ⟨above, whole⟩ := components_named named
  exact steps_normal (p := p) (by simp [steps_of_components whole])

/-- A path without a file name leads to a directory above the one that it is in. -/
theorem location_unnamed (unnamed : p.fileName? = none) :
    p.location <+: (directory p).location := by
  rw [location_eq, location_eq]
  rcases List.eq_nil_or_concat p.components with empty | ⟨above, last, whole⟩
  · have nothing : p.steps = [] := by
      rcases components_eq p with same | same <;> rw [empty] at same
      · exact same.symm
      · simp at same
    simp [nothing, follow]
  · rw [List.concat_eq_append] at whole
    rw [steps_directory whole]
    cases last with
    | normal name => simp [fileName?, whole] at unnamed
    | parent =>
      rw [steps_of_components whole (by simp)]
      exact follow_append_parent _
    | current =>
      have nothing : p.steps = [] := by
        rcases components_eq p with same | same <;> rw [whole] at same
        · exact absurd (same ▸ by simp) (steps_current p)
        · rcases List.eq_nil_or_concat p.steps with empty | ⟨front, c, ending⟩
          · exact empty
          · rw [ending, List.concat_eq_append] at same
            have equal := congrArg List.getLast? same
            rw [← List.cons_append] at equal
            simp only [List.getLast?_concat, Option.some.injEq] at equal
            exact absurd (by simp [ending, ← equal]) (steps_current p)
      simp [nothing, follow]

theorem backup_unnamed (unnamed : p.fileName? = none) : backup p = p := by
  simp [backup, withExtension, unnamed]

/-! The name of the backup -/

theorem replaceExtension_eq (name extension : List UInt8) :
    ∃ stem, replaceExtension name extension = stem ++ dot :: extension ∧
      ∀ b ∈ stem, b ∈ name := by
  refine ⟨_, rfl, ?_⟩
  intro b h
  split at h
  · exact h
  · exact h
  · rename_i _ stem _ whole
    have inside : b ∈ name.reverse.dropWhile (· ≠ dot) := by
      rw [whole]
      exact List.mem_cons_of_mem _ (List.mem_reverse.mp h)
    exact List.mem_reverse.mp ((List.dropWhile_sublist _).subset inside)

theorem plain_replaceExtension {extension : List UInt8} (plain : PlainName name)
    (clean : slash ∉ extension) (long : 2 ≤ extension.length) :
    PlainName (replaceExtension name extension) := by
  obtain ⟨stem, whole, inside⟩ := replaceExtension_eq name extension
  rw [whole]
  refine ⟨?_, ?_⟩
  · intro h
    rcases List.mem_append.mp h with h | h
    · exact plain.noSlash (inside slash h)
    · rcases List.mem_cons.mp h with h | h
      · exact absurd h (by decide)
      · exact clean h
  · have short : ∀ other : List UInt8, other.length ≤ 2 → stem ++ dot :: extension ≠ other := by
      intro other bound equal
      have sizes := congrArg List.length equal
      simp only [List.length_append, List.length_cons] at sizes
      omega
    simp only [step?, short [] (by simp), short [dot] (by simp), short [dot, dot] (by simp),
      or_self, if_false]

theorem takeWhile_reverse_append {stem extension : List UInt8} (clean : dot ∉ extension) :
    (stem ++ dot :: extension).reverse.takeWhile (· ≠ dot) = extension.reverse := by
  have whole : (stem ++ dot :: extension).reverse = extension.reverse ++ dot :: stem.reverse := by
    simp
  rw [whole, List.takeWhile_append_of_pos]
  · simp
  · intro b h
    have different : b ≠ dot := fun equal => clean (equal ▸ List.mem_reverse.mp h)
    simpa using different

/-- Only a name that has an extension already stays the same when it gets that extension. -/
theorem replaceExtension_ne {extension : List UInt8} (named : p.fileName? = some name)
    (other : p.extension? ≠ some extension) (clean : dot ∉ extension) :
    replaceExtension name extension ≠ name := by
  intro equal
  obtain ⟨stem, whole, -⟩ := replaceExtension_eq name extension
  have shape : name = stem ++ dot :: extension := equal.symm.trans whole
  have ending : name.reverse.takeWhile (· ≠ dot) = extension.reverse := by
    rw [shape]
    exact takeWhile_reverse_append clean
  have start : name.reverse.dropWhile (· ≠ dot) = dot :: stem.reverse := by
    have parts := List.takeWhile_append_dropWhile (p := (· ≠ dot)) (l := name.reverse)
    rw [ending] at parts
    have sides : extension.reverse ++ name.reverse.dropWhile (· ≠ dot) =
        extension.reverse ++ dot :: stem.reverse := by
      rw [parts, shape]
      simp
    exact List.append_cancel_left sides
  cases stem with
  | nil =>
    -- a dot at the start counts as part of the name, which therefore grows
    have grown : replaceExtension name extension = name ++ dot :: extension := by
      simp only [replaceExtension]
      rw [start]
      rfl
    rw [grown] at equal
    have sizes := congrArg List.length equal
    simp at sizes
  | cons b rest =>
    have reversed : (b :: rest).reverse ≠ [] := by simp
    apply other
    simp only [extension?, named, Option.bind_some, start]
    cases h : (b :: rest).reverse with
    | nil => exact absurd h reversed
    | cons c more =>
      simp only [Option.some.injEq]
      rw [ending, List.reverse_reverse]

theorem encode_bak : Utf8.encode "bak" = [0x62, 0x61, 0x6B] :=
  Utf8.encode_ofList ['b', 'a', 'k'] (by simp)

/-- The backup stands beside its file, under another name unless the file's own extension is that of
backups. -/
theorem backup_named (named : p.fileName? = some name) :
    ∃ file, PlainName file ∧ (p.extension? ≠ some (Utf8.encode "bak") → file ≠ name) ∧
      (backup p).location = (directory p).location ++ [file] := by
  have plain : PlainName (replaceExtension name (Utf8.encode "bak")) :=
    plain_replaceExtension (plain_named named) (by rw [encode_bak]; decide)
      (by rw [encode_bak]; decide)
  refine ⟨replaceExtension name (Utf8.encode "bak"), plain,
    fun other => replaceExtension_ne named other (by rw [encode_bak]; decide), ?_⟩
  obtain ⟨above, whole⟩ := components_named named
  have parent : p.parent? = some (ofComponents p.isAbsolute (above.map Component.bytes)) := by
    simp [parent?, whole]
  simp only [backup, withExtension, named, parent]
  split
  · rename_i empty
    have nowhere : (directory p).location = [] := by
      simp only [directory, parent, if_pos empty]
      rw [location_eq, ofString, encode_dot]
      decide
    rw [nowhere, location_eq, plain.steps]
    exact follow_append_normal [] _
  · rename_i nonempty
    rw [location_join plain]
    simp only [directory, parent, if_neg nonempty]

end Neighbours

end LinterClient.FilePath
