import Mathlib.Data.List.DropRight
import LinterClient.WorkingDirectory

/-!
Which working directory a document gets.

The entries are read once, and only one candidate is kept. What is kept after some of them is decided by
those after the last mode: a mode erases what came before it, a shorter match loses to a longer one.
-/

namespace LinterClient.WorkingDirectory

open Settings (WorkingDirectoryEntry WorkingDirectoryMode)

/-! ## The slash at the end -/

theorem endsWith_slash_iff {s : String} : s.endsWith "/" = true ↔ s.toList.getLast? = some '/' := by
  have ends : s.toSlice.endsWith "/" = true ↔ "/".toList <:+ s.toSlice.copy.toList :=
    String.Slice.endsWith_string_iff
  rw [String.copy_toSlice] at ends
  rw [List.getLast?_eq_some_iff]
  apply ends.trans
  exact exists_congr fun front => eq_comm

theorem withSlash_ends (s : String) : (withSlash s).toList.getLast? = some '/' := by
  rw [withSlash]
  split
  · exact endsWith_slash_iff.mp ‹_›
  · simp

theorem withSlash_append (s : String) {t : String} (filled : t ≠ "") :
    withSlash (s ++ t) = s ++ withSlash t := by
  have same : (s ++ t).endsWith "/" = true ↔ t.endsWith "/" = true := by
    have filled : t.toList ≠ [] := fun empty => filled (String.toList_eq_nil_iff.mp empty)
    rw [endsWith_slash_iff, endsWith_slash_iff, String.toList_append, List.getLast?_append_of_ne_nil _ filled]
  simp only [withSlash, same]
  split
  · rfl
  · rw [String.append_assoc]

/-! ## Candidates -/

/-- The text of a file's path that a directory or a pattern matches. -/
def matched? (file : Option String) (root : Option FilePath) : WorkingDirectoryEntry → Option String
  | .path d | .legacy d _ | .directory d _ => matchDirectory? d file root
  | .pattern p _ => matchPattern? p file root
  | .mode _ | .unrecognized _ => none

/-- Whether an entry keeps the process where it is. -/
def noCwd : WorkingDirectoryEntry → Bool
  | .legacy _ change => !change
  | .directory _ noCwd | .pattern _ noCwd => noCwd.getD false
  | .path _ | .mode _ | .unrecognized _ => false

def mode? : WorkingDirectoryEntry → Option WorkingDirectoryMode
  | .mode m => some m
  | _ => none

def isRecognized : WorkingDirectoryEntry → Bool
  | .unrecognized _ => false
  | _ => true

def lastMode? (entries : List WorkingDirectoryEntry) : Option WorkingDirectoryMode :=
  (entries.filterMap mode?).getLast?

/-- The entries after the last mode; all of them without one. -/
def sinceMode (entries : List WorkingDirectoryEntry) : List WorkingDirectoryEntry :=
  entries.rtakeWhile fun e => (mode? e).isNone

/-- An entry matches a text, none before it a longer one, and none after it one as long. -/
def Wins (file : Option String) (root : Option FilePath) (entries : List WorkingDirectoryEntry)
    (e : WorkingDirectoryEntry) (text : String) : Prop :=
  matched? file root e = some text ∧ ∃ before later, entries = before ++ e :: later ∧
    (∀ b ∈ before, ∀ t, matched? file root b = some t → t.utf8ByteSize ≤ text.utf8ByteSize) ∧
    ∀ l ∈ later, ∀ t, matched? file root l = some t → t.utf8ByteSize < text.utf8ByteSize

/-- What is chosen by the winner after the last mode, or by that mode. -/
def Chosen (file : Option String) (root : Option FilePath) (entries : List WorkingDirectoryEntry)
    (result : Option Settings.WorkingDirectory) : Prop :=
  (∃ e text, Wins file root (sinceMode entries) e text ∧ result = some (.directory text (noCwd e))) ∨
    ((∀ e ∈ sinceMode entries, matched? file root e = none) ∧
      result = (lastMode? entries).map .mode)

section Scan

variable {file : Option String} {root : Option FilePath} {entries : List WorkingDirectoryEntry}
variable {e e' : WorkingDirectoryEntry} {text text' : String}

theorem offer_mode {m : WorkingDirectoryMode} (mode : mode? e = some m) : offer file root e = .mode m := by
  cases e with
  | mode => exact congrArg Offer.mode (Option.some.inj mode)
  | _ => cases mode

theorem offer_matched (matched : matched? file root e = some text) :
    offer file root e = .directory text (noCwd e) := by
  cases e with
  | mode => cases matched
  | unrecognized => cases matched
  | _ =>
    simp only [matched?] at matched
    simp only [offer, matched]
    rfl

theorem offer_nothing (plain : mode? e = none) (unmatched : matched? file root e = none) :
    offer file root e = .nothing := by
  cases e with
  | mode => cases plain
  | unrecognized => rfl
  | _ =>
    simp only [matched?] at unmatched
    simp only [offer, unmatched]
    rfl

theorem sinceMode_append (e : WorkingDirectoryEntry) :
    sinceMode (entries ++ [e]) = if (mode? e).isNone then sinceMode entries ++ [e] else [] := by
  rw [sinceMode, List.rtakeWhile_concat]
  rfl

theorem lastMode?_append (e : WorkingDirectoryEntry) :
    lastMode? (entries ++ [e]) = (mode? e).or (lastMode? entries) := by
  cases mode : mode? e with
  | none => simp [lastMode?, mode]
  | some m => simp [lastMode?, mode]

theorem Wins.append (wins : Wins file root entries e text)
    (shorter : ∀ t, matched? file root e' = some t → t.utf8ByteSize < text.utf8ByteSize) :
    Wins file root (entries ++ [e']) e text := by
  obtain ⟨matched, before, later, rfl, noLonger, less⟩ := wins
  refine ⟨matched, before, later ++ [e'], by simp, noLonger, fun l member => ?_⟩
  rcases List.mem_append.mp member with member | last
  · exact less l member
  · rw [List.mem_singleton.mp last]
    exact shorter

theorem wins_last (matched : matched? file root e = some text)
    (noLonger : ∀ b ∈ entries, ∀ t, matched? file root b = some t →
      t.utf8ByteSize ≤ text.utf8ByteSize) :
    Wins file root (entries ++ [e]) e text :=
  ⟨matched, entries, [], rfl, noLonger, by simp⟩

/-- Nothing that matches is longer than the winner. -/
theorem Wins.le (wins : Wins file root entries e text) {b : WorkingDirectoryEntry} (member : b ∈ entries)
    {t : String} (matched : matched? file root b = some t) : t.utf8ByteSize ≤ text.utf8ByteSize := by
  obtain ⟨own, before, later, rfl, noLonger, less⟩ := wins
  rcases List.mem_append.mp member with earlier | member
  · exact noLonger b earlier t matched
  · rcases List.mem_cons.mp member with rfl | member
    · rw [Option.some.inj (own.symm.trans matched)]
    · exact Nat.le_of_lt (less b member t matched)

theorem Wins.unique (wins : Wins file root entries e text) (wins' : Wins file root entries e' text') :
    e = e' ∧ text = text' := by
  have same : text.utf8ByteSize = text'.utf8ByteSize := by
    obtain ⟨matched, before, later, rfl, -⟩ := id wins
    obtain ⟨matched', before', later', split', -⟩ := id wins'
    exact Nat.le_antisymm (wins'.le (by simp) matched) (wins.le (by simp [split']) matched')
  obtain ⟨matched, before, later, split, noLonger, less⟩ := wins
  obtain ⟨matched', before', later', split', noLonger', less'⟩ := wins'
  -- neither stands after the other, as it would be shorter then
  rw [split, List.append_eq_append_iff] at split'
  have equal : e = e' := by
    rcases split' with ⟨gap, -, rest⟩ | ⟨gap, -, rest⟩
    · cases gap with
      | nil => exact (List.cons.inj rest).1
      | cons x gap =>
        have after : e' ∈ later := by
          rw [(List.cons.inj rest).2]
          simp
        exact absurd (less e' after text' matched') (by omega)
    · cases gap with
      | nil => exact (List.cons.inj rest).1.symm
      | cons x gap =>
        have after : e ∈ later' := by
          rw [(List.cons.inj rest).2]
          simp
        exact absurd (less' e after text matched) (by omega)
  subst equal
  exact ⟨rfl, Option.some.inj (matched.symm.trans matched')⟩

/-- One more entry. -/
theorem Chosen.append {result : Option Settings.WorkingDirectory}
    (chosen : Chosen file root entries result) (e : WorkingDirectoryEntry) :
    Chosen file root (entries ++ [e]) (choose result (offer file root e)) := by
  rw [Chosen, sinceMode_append, lastMode?_append]
  cases mode : mode? e with
  | some m =>
    right
    simp [offer_mode mode, choose]
  | none =>
    simp only [Option.isNone_none, if_true, Option.none_or]
    cases matched : matched? file root e with
    | none =>
      rw [offer_nothing mode matched]
      rcases chosen with ⟨b, text, wins, same⟩ | ⟨unmatched, same⟩
      · exact .inl ⟨b, text, wins.append (by simp [matched]), same⟩
      · refine .inr ⟨fun b member => ?_, same⟩
        rcases List.mem_append.mp member with member | last
        · exact unmatched b member
        · rw [List.mem_singleton.mp last]
          exact matched
    | some text =>
      rw [offer_matched matched]
      left
      rcases chosen with ⟨b, old, wins, rfl⟩ | ⟨unmatched, rfl⟩
      · by_cases longer : old.utf8ByteSize ≤ text.utf8ByteSize
        · refine ⟨e, text, wins_last matched fun b member t found => ?_, by simp [choose, longer]⟩
          exact Nat.le_trans (wins.le member found) longer
        · refine ⟨b, old, wins.append fun t found => ?_, by simp [choose, longer]⟩
          rw [← Option.some.inj (matched.symm.trans found)]
          omega
      · refine ⟨e, text, wins_last matched fun b member t found => ?_, ?_⟩
        · rw [unmatched b member] at found
          cases found
        · cases lastMode? entries <;> rfl

theorem chosen_scan (file : Option String) (root : Option FilePath) (entries : List WorkingDirectoryEntry) :
    Chosen file root entries (entries.foldl (fun current e => choose current (offer file root e)) none) := by
  induction entries using List.reverseRecOn with
  | nil => exact .inr ⟨by simp [sinceMode], rfl⟩
  | append_singleton entries e ih =>
    rw [List.foldl_append]
    exact ih.append e

/-- Entries of no kind change nothing. -/
theorem scan_recognized (file : Option String) (root : Option FilePath)
    (entries : List WorkingDirectoryEntry) :
    entries.foldl (fun current e => choose current (offer file root e)) none =
      (entries.filter isRecognized).foldl (fun current e => choose current (offer file root e)) none := by
  rw [List.foldl_filter]
  congr 1
  funext current e
  cases e <;> rfl

end Scan

/-- The entries after the last mode decide. If one of them matches, the last of those with the longest text
is chosen, with its own say on the process's directory; else that mode, or nothing without one. Entries
of no kind do not count. -/
theorem resolve_exact (entries : List WorkingDirectoryEntry) (document : TextDocument)
    (folder : Option WorkspaceFolder) :
    let file := document.filePath?.map (·.text)
    let root := folder.bind (·.path?)
    (∀ e text, Wins file root (sinceMode entries) e text →
      resolve entries document folder = some (.directory text (noCwd e))) ∧
    ((∃ e ∈ sinceMode entries, (matched? file root e).isSome) →
      ∃ e text, Wins file root (sinceMode entries) e text) ∧
    ((∀ e ∈ sinceMode entries, matched? file root e = none) →
      resolve entries document folder = (lastMode? entries).map .mode) ∧
    ∀ others, others.filter isRecognized = entries.filter isRecognized →
      resolve others document folder = resolve entries document folder := by
  intro file root
  have chosen : Chosen file root entries (resolve entries document folder) :=
    chosen_scan file root entries
  refine ⟨fun e text wins => ?_, fun ⟨e, member, found⟩ => ?_, fun unmatched => ?_, fun others same => ?_⟩
  · rcases chosen with ⟨b, t, wins', result⟩ | ⟨unmatched, -⟩
    · obtain ⟨rfl, rfl⟩ := wins.unique wins'
      exact result
    · obtain ⟨matched, before, later, split, -⟩ := wins
      rw [unmatched e (by simp [split])] at matched
      cases matched
  · rcases chosen with ⟨b, t, wins, -⟩ | ⟨unmatched, -⟩
    · exact ⟨b, t, wins⟩
    · rw [unmatched e member] at found
      cases found
  · rcases chosen with ⟨b, t, ⟨matched, before, later, split, -⟩, -⟩ | ⟨-, result⟩
    · rw [unmatched b (by simp [split])] at matched
      cases matched
    · exact result
  · exact (scan_recognized file root others).trans (same ▸ (scan_recognized file root entries).symm)

/-- What stands before a mode does not count, and of two equally long matches the second wins. -/
example :
    resolve [.path "/a/b", .mode .auto, .directory "/a" (some false), .legacy "/a/" false, .path "/c"]
      ⟨⟨"file", some ⟨"", .empty, none⟩, "/a/b/c.js", none, none⟩, "javascript"⟩ none =
      some (.directory "/a/" true) := by
  decide +kernel

end LinterClient.WorkingDirectory
