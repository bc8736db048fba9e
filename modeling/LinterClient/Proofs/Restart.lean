import LinterClient.Restart

/-!
What a restart policy decides, against all that it was told before.

A policy only keeps the restarts that may still count, and looks at them only when a server stops. That
is as good as the whole history: what it keeps are the restarts inside the window of the last look.
-/

namespace LinterClient.Restart

/-- What a policy is told. -/
inductive Notice where
  | stopped (time : Nat)
  | exitCalled
  | reset

/-- What a policy was told, with its decision at each stop. -/
inductive Entry where
  | stopped (time : Nat) (decision : Decision)
  | exitCalled
  | reset
deriving DecidableEq

def stops (notices : List Notice) : List Nat :=
  notices.filterMap fun
    | .stopped t => some t
    | _ => none

def Policy.trace (p : Policy) : List Notice → List Entry
  | [] => []
  | .stopped t :: rest => .stopped t (p.onStopped t).1 :: (p.onStopped t).2.trace rest
  | .exitCalled :: rest => .exitCalled :: p.noteExit.trace rest
  | .reset :: rest => .reset :: p.reset.trace rest

/-- What happened after the last reset. -/
def sinceReset (past : List Entry) : List Entry :=
  past.foldl (fun recent e => if e = .reset then [] else recent ++ [e]) []

/-- The times of the stops after which the server was to be restarted. -/
def restarts (past : List Entry) : List Nat :=
  past.filterMap fun
    | .stopped t .restart => some t
    | _ => none

/-- What a policy keeps of what happened since the last reset, up to a time. -/
structure Tracks (p : Policy) (recent : List Entry) (now : Nat) : Prop where
  exited : p.exitCalled = true ↔ .exitCalled ∈ recent
  past : ∀ r ∈ restarts recent, r ≤ now
  sorted : (restarts recent).Pairwise (· ≤ ·)
  kept : ∃ seen ≤ now, p.restarts = (restarts recent).filter (seen - · ≤ window)
  spaced : ∀ i j (first : i < (restarts recent).length) (last : j < (restarts recent).length),
    i + maxRestarts ≤ j → (restarts recent)[i] + window < (restarts recent)[j]

theorem sinceReset_append (past : List Entry) (e : Entry) :
    sinceReset (past ++ [e]) = if e = .reset then [] else sinceReset past ++ [e] := by
  simp [sinceReset]

theorem tracks_new (now : Nat) : Tracks .new [] now where
  exited := by simp [Policy.new]
  past := by simp [restarts]
  sorted := List.Pairwise.nil
  kept := ⟨0, Nat.zero_le now, rfl⟩
  spaced := by simp [restarts]

theorem tracks_start : Tracks .new (sinceReset []) 0 :=
  tracks_new 0

/-- In order of time, those that are too old come first. -/
theorem dropWhile_eq_filter {times : List Nat} (sorted : times.Pairwise (· ≤ ·)) (now : Nat) :
    times.dropWhile (fun r => window < now - r) = times.filter (now - · ≤ window) := by
  induction times with
  | nil => rfl
  | cons r rest ih =>
    rw [List.pairwise_cons] at sorted
    by_cases old : window < now - r
    · rw [List.dropWhile_cons_of_pos (by simpa using old), List.filter_cons_of_neg (by simp; omega)]
      exact ih sorted.2
    · have all : ∀ r' ∈ r :: rest, decide (now - r' ≤ window) = true := by
        intro r' member
        rw [decide_eq_true_eq]
        rcases List.mem_cons.mp member with rfl | later
        · omega
        · have order := sorted.1 r' later
          omega
      rw [List.dropWhile_cons_of_neg (by simpa using old), List.filter_eq_self.mpr all]

section Steps

variable {p : Policy} {recent : List Entry} {now t : Nat}

/-- What is left after a look at a time is what a look at the whole history leaves. -/
theorem Tracks.look (tracks : Tracks p recent now) (later : now ≤ t) :
    p.restarts.dropWhile (fun r => window < t - r) = (restarts recent).filter (t - · ≤ window) := by
  obtain ⟨seen, early, kept⟩ := tracks.kept
  have sorted : p.restarts.Pairwise (· ≤ ·) := by
    rw [kept]
    exact tracks.sorted.filter _
  rw [dropWhile_eq_filter sorted, kept, List.filter_filter]
  apply List.filter_congr
  intro r _
  have narrows : t - r ≤ window → seen - r ≤ window := by omega
  simpa using narrows

theorem Tracks.onStopped_eq (tracks : Tracks p recent now) (later : now ≤ t) :
    p.onStopped t =
      if .exitCalled ∈ recent then (.exitCalled, p)
      else if maxRestarts ≤ (restarts recent).countP (t - · ≤ window) then
        (.giveUp, { p with restarts := (restarts recent).filter (t - · ≤ window) })
      else (.restart, { p with restarts := (restarts recent).filter (t - · ≤ window) ++ [t] }) := by
  rw [Policy.onStopped, tracks.look later, List.countP_eq_length_filter]
  simp only [tracks.exited]

/-- Of many restarts in order of time, those inside the window are the last ones. -/
theorem Tracks.old (tracks : Tracks p recent now) {i : Nat} (first : i < (restarts recent).length)
    (few : (restarts recent).countP (t - · ≤ window) < maxRestarts)
    (many : i + maxRestarts ≤ (restarts recent).length) : (restarts recent)[i] + window < t := by
  apply Nat.lt_of_not_le
  intro young
  have all : ∀ r ∈ (restarts recent).drop i, decide (t - r ≤ window) = true := by
    intro r member
    obtain ⟨n, inside, rfl⟩ := List.mem_iff_getElem.mp member
    rw [List.length_drop] at inside
    rw [List.getElem_drop]
    have order : (restarts recent)[i] ≤ (restarts recent)[i + n] := by
      rcases Nat.eq_zero_or_pos n with rfl | first
      · exact Nat.le_refl _
      · exact List.pairwise_iff_getElem.mp tracks.sorted i (i + n) _ _ (by omega)
    rw [decide_eq_true_eq]
    omega
  have counted : ((restarts recent).drop i).countP (t - · ≤ window) = (restarts recent).length - i := by
    rw [List.countP_eq_length.mpr all, List.length_drop]
  have fewer : ((restarts recent).drop i).countP (t - · ≤ window) ≤
      (restarts recent).countP (t - · ≤ window) :=
    (List.drop_sublist i (restarts recent)).countP_le
  omega

theorem Tracks.noteExit (tracks : Tracks p recent now) :
    Tracks p.noteExit (recent ++ [.exitCalled]) now := by
  have same : restarts (recent ++ [.exitCalled]) = restarts recent := by
    simp [restarts]
  refine ⟨by simp [Policy.noteExit], ?_, ?_, ?_, ?_⟩
  all_goals simp only [same]
  · exact tracks.past
  · exact tracks.sorted
  · exact tracks.kept
  · exact tracks.spaced

theorem Tracks.refused {d : Decision} (tracks : Tracks p recent now) (later : now ≤ t)
    (other : d ≠ .restart) {p' : Policy} (exits : p'.exitCalled = p.exitCalled)
    (kept : ∃ seen ≤ t, p'.restarts = (restarts recent).filter (seen - · ≤ window)) :
    Tracks p' (recent ++ [.stopped t d]) t := by
  have same : restarts (recent ++ [.stopped t d]) = restarts recent := by
    cases d <;> simp_all [restarts]
  refine ⟨by simp [exits, tracks.exited], ?_, ?_, ?_, ?_⟩
  all_goals simp only [same]
  · intro r member
    exact Nat.le_trans (tracks.past r member) later
  · exact tracks.sorted
  · exact kept
  · exact tracks.spaced

theorem Tracks.granted (tracks : Tracks p recent now) (later : now ≤ t)
    (few : (restarts recent).countP (t - · ≤ window) < maxRestarts) :
    Tracks { p with restarts := (restarts recent).filter (t - · ≤ window) ++ [t] }
      (recent ++ [.stopped t .restart]) t := by
  have more : restarts (recent ++ [.stopped t .restart]) = restarts recent ++ [t] := by
    simp [restarts]
  have before : ∀ r ∈ restarts recent, r ≤ t := by
    intro r member
    exact Nat.le_trans (tracks.past r member) later
  refine ⟨by simp [tracks.exited], ?_, ?_, ⟨t, Nat.le_refl t, ?_⟩, ?_⟩
  all_goals simp only [more]
  · intro r member
    rcases List.mem_append.mp member with old | new
    · exact before r old
    · exact Nat.le_of_eq (List.mem_singleton.mp new)
  · rw [List.pairwise_append]
    refine ⟨tracks.sorted, List.pairwise_singleton _ _, ?_⟩
    intro r member r' new
    rw [List.mem_singleton.mp new]
    exact before r member
  · simp [List.filter_append]
  · intro i j first last apart
    have positive : 0 < maxRestarts := by decide
    rw [List.length_append, List.length_singleton] at last
    have earlier : i < (restarts recent).length := by omega
    rw [List.getElem_append_left earlier]
    rcases Nat.lt_or_ge j (restarts recent).length with old | new
    · rw [List.getElem_append_left old]
      exact tracks.spaced i j earlier old apart
    · have end_ : j = (restarts recent).length := by omega
      subst end_
      rw [List.getElem_concat_length rfl]
      exact tracks.old earlier few apart

/-- A stop is decided by the history alone, and what is kept still stands for it afterwards. -/
theorem Tracks.stopped (tracks : Tracks p recent now) (later : now ≤ t) :
    Tracks (p.onStopped t).2 (recent ++ [.stopped t (p.onStopped t).1]) t := by
  rw [tracks.onStopped_eq later]
  split
  · obtain ⟨seen, early, kept⟩ := tracks.kept
    exact tracks.refused later (by simp) rfl ⟨seen, Nat.le_trans early later, kept⟩
  split
  · exact tracks.refused later (by simp) rfl ⟨t, Nat.le_refl t, rfl⟩
  · rename_i few
    exact tracks.granted later (Nat.lt_of_not_le few)

end Steps

/-- Every entry that a policy adds to its history keeps it in line with what the policy keeps. -/
theorem Tracks.along {p : Policy} {past : List Entry} {now : Nat} {notices : List Notice}
    (tracks : Tracks p (sinceReset past) now) (ordered : (now :: stops notices).Pairwise (· ≤ ·))
    {before after : List Entry} (split : p.trace notices = before ++ after) :
    ∃ p' now' rest, Tracks p' (sinceReset (past ++ before)) now' ∧ p'.trace rest = after ∧
      (now' :: stops rest).Pairwise (· ≤ ·) := by
  induction before generalizing p past now notices with
  | nil =>
    rw [List.append_nil]
    exact ⟨p, now, notices, tracks, split, ordered⟩
  | cons e before ih =>
    cases notices with
    | nil => cases split
    | cons notice rest =>
      have goesOn : ∀ {p' : Policy} {now' : Nat}, p'.trace rest = before ++ after →
          Tracks p' (sinceReset (past ++ [e])) now' → (now' :: stops rest).Pairwise (· ≤ ·) →
            ∃ p' now' rest, Tracks p' (sinceReset (past ++ e :: before)) now' ∧ p'.trace rest = after ∧
              (now' :: stops rest).Pairwise (· ≤ ·) := by
        intro p' now' split tracks ordered
        obtain ⟨q, last, left, found⟩ := ih tracks ordered split
        rw [List.append_assoc] at found
        exact ⟨q, last, left, found⟩
      cases notice with
      | stopped t =>
        obtain ⟨rfl, next⟩ := List.cons.inj split
        have order : now ≤ t ∧ (t :: stops rest).Pairwise (· ≤ ·) := by
          have whole : (now :: t :: stops rest).Pairwise (· ≤ ·) := ordered
          rw [List.pairwise_cons] at whole
          exact ⟨whole.1 t List.mem_cons_self, whole.2⟩
        apply goesOn next _ order.2
        rw [sinceReset_append, if_neg (by simp)]
        exact tracks.stopped order.1
      | exitCalled =>
        obtain ⟨rfl, next⟩ := List.cons.inj split
        apply goesOn next _ ordered
        rw [sinceReset_append, if_neg (by simp)]
        exact tracks.noteExit
      | reset =>
        obtain ⟨rfl, next⟩ := List.cons.inj split
        apply goesOn next _ ordered
        rw [sinceReset_append, if_pos rfl]
        exact tracks_new now

theorem onStopped_of_exitCalled {p : Policy} (exited : p.exitCalled = true) (t : Nat) :
    p.onStopped t = (.exitCalled, p) := by
  simp [Policy.onStopped, exited]

theorem onStopped_exitCalled (p : Policy) (t : Nat) :
    (p.onStopped t).2.exitCalled = p.exitCalled := by
  unfold Policy.onStopped
  dsimp only
  split
  · rfl
  · split <;> rfl

section Traces

variable {notices : List Notice} {before after : List Entry}

theorem ordered_from_zero (ordered : (stops notices).Pairwise (· ≤ ·)) :
    (0 :: stops notices).Pairwise (· ≤ ·) := by
  rw [List.pairwise_cons]
  exact ⟨fun _ _ => Nat.zero_le _, ordered⟩

/-- A stop is answered from the history: not at all after a call of exit, and else by the number of
restarts inside the window. -/
theorem decision_eq (ordered : (stops notices).Pairwise (· ≤ ·)) {t : Nat} {d : Decision}
    (split : Policy.new.trace notices = before ++ .stopped t d :: after) :
    d = if .exitCalled ∈ sinceReset before then .exitCalled
      else if maxRestarts ≤ (restarts (sinceReset before)).countP (t - · ≤ window) then .giveUp
      else .restart := by
  obtain ⟨p, now, rest, tracks, next, ordered⟩ :=
    Tracks.along tracks_start (ordered_from_zero ordered) split
  rw [List.nil_append] at tracks
  cases rest with
  | nil => cases next
  | cons notice rest =>
    cases notice with
    | exitCalled => cases next
    | reset => cases next
    | stopped t' =>
      cases next
      have later : now ≤ t := by
        have whole : (now :: t :: stops rest).Pairwise (· ≤ ·) := ordered
        rw [List.pairwise_cons] at whole
        exact whole.1 t List.mem_cons_self
      rw [tracks.onStopped_eq later]
      split
      · rfl
      · split <;> rfl

/-- Between resets, more restarts than are allowed inside the window do not fit in it. -/
theorem restarts_spaced (ordered : (stops notices).Pairwise (· ≤ ·))
    (split : Policy.new.trace notices = before ++ after) (i j : Nat)
    (first : i < (restarts (sinceReset before)).length)
    (last : j < (restarts (sinceReset before)).length) (apart : i + maxRestarts ≤ j) :
    (restarts (sinceReset before))[i] + window < (restarts (sinceReset before))[j] := by
  obtain ⟨p, now, rest, tracks, -⟩ :=
    Tracks.along tracks_start (ordered_from_zero ordered) split
  rw [List.nil_append] at tracks
  exact tracks.spaced i j first last apart

end Traces

end LinterClient.Restart
