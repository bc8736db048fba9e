import Mathlib.Data.List.Pairwise
import LinterClient.Proofs.Regex.Language

/-!
Which of several matches is preferred.

What is preferred behind an expression is found by trying its remains one after the other. Remains that were
dropped because they were found before change nothing about that, so each of several texts can be followed
alone. A star of single characters takes as many of them as it can, and then fewer.
-/

namespace LinterClient.Regex

variable {β : Type}

theorem findSome?_firstOfEachLength (text : List Char) {l : List (List Char)} (tails : ∀ s ∈ l, s <:+ text)
    (f : List Char → Option β) (seen : List Nat)
    (refused : ∀ s, s <:+ text → s.length ∈ seen → f s = none) :
    (firstOfEachLength seen l).findSome? f = l.findSome? f := by
  induction l generalizing seen with
  | nil => rfl
  | cons s l ih =>
    have tail := tails s List.mem_cons_self
    have later : ∀ t ∈ l, t <:+ text := fun t member => tails t (List.mem_cons_of_mem _ member)
    rw [firstOfEachLength, List.findSome?_cons]
    split
    · rename_i known
      rw [refused s tail (by simpa using known)]
      exact ih later seen refused
    · rw [List.findSome?_cons]
      cases found : f s with
      | some b => rfl
      | none =>
        apply ih later
        intro t inside member
        rcases List.mem_cons.mp member with same | old
        · rw [eq_of_tails inside tail same, found]
        · exact refused t inside old

theorem findSome?_distinct (text : List Char) {l : List (List Char)} (tails : ∀ s ∈ l, s <:+ text)
    (f : List Char → Option β) : (firstOfEachLength [] l).findSome? f = l.findSome? f :=
  findSome?_firstOfEachLength text tails f [] (by simp)

theorem findSome?_flatMap {γ δ : Type} (l : List γ) (g : γ → List δ) (f : δ → Option β) :
    (l.flatMap g).findSome? f = l.findSome? fun s => (g s).findSome? f := by
  induction l with
  | nil => rfl
  | cons s l ih =>
    rw [List.flatMap_cons, List.findSome?_append, List.findSome?_cons, ih]
    cases (g s).findSome? f <;> rfl

theorem findSome?_congr {γ : Type} {l : List γ} {f g : γ → Option β} (same : ∀ s ∈ l, f s = g s) :
    l.findSome? f = l.findSome? g := by
  induction l with
  | nil => rfl
  | cons s l ih =>
    rw [List.findSome?_cons, List.findSome?_cons, same s List.mem_cons_self]
    rw [ih fun t member => same t (List.mem_cons_of_mem _ member)]

theorem findSome?_distinct_flatMap {l : List (List Char)} {text : List Char} (tails : ∀ s ∈ l, s <:+ text)
    {g : List Char → List (List Char)} (shorter : ∀ s, ∀ t ∈ g s, t <:+ s) (f : List Char → Option β) :
    (firstOfEachLength [] (l.flatMap g)).findSome? f =
      l.findSome? fun s => (firstOfEachLength [] ([s].flatMap g)).findSome? f := by
  have all : ∀ t ∈ l.flatMap g, t <:+ text := by
    intro t member
    obtain ⟨s, inside, found⟩ := List.mem_flatMap.mp member
    exact (shorter s t found).trans (tails s inside)
  rw [findSome?_distinct text all, findSome?_flatMap]
  apply findSome?_congr
  intro s _
  rw [List.flatMap_singleton, findSome?_distinct s (shorter s)]

theorem suffix_of_mem_rests {r : Regex} {s t : List Char} (member : t ∈ r.rests [s]) : t <:+ s := by
  obtain ⟨w, -, rfl⟩ := (mem_rests_single r s t).mp member
  exact List.suffix_append w t

theorem suffix_of_mem_repeated {body : Regex} {s t : List Char}
    (member : t ∈ repeated (fun u => body.rests [u]) s.length s) : t <:+ s := by
  have steps : ∀ u, u <:+ s → ∀ v, v ∈ body.rests [u] ↔ ∃ w ∈ body.language, u = w ++ v :=
    fun u _ v => mem_rests_single body u v
  obtain ⟨w, -, same⟩ := (mem_repeated steps s.length s List.suffix_rfl (Nat.le_refl _) t).mp member
  exact ⟨w, same.symm⟩

/-- Several texts are followed one after the other. -/
theorem findSome?_rests (r : Regex) {text : List Char} {l : List (List Char)} (tails : ∀ s ∈ l, s <:+ text)
    (f : List Char → Option β) :
    (r.rests l).findSome? f = l.findSome? fun s => (r.rests [s]).findSome? f := by
  have plain (l : List (List Char)) (g : List Char → List (List Char)) (f : List Char → Option β) :
      (l.flatMap g).findSome? f = l.findSome? fun s => ([s].flatMap g).findSome? f := by
    simp only [findSome?_flatMap, List.flatMap_singleton]
  induction r generalizing l f with
  | empty => simp only [rests, List.findSome?_singleton]
  | char | anyChar | set => exact plain l _ f
  | group body ih => exact ih tails f
  | seq first rest ihFirst ihRest =>
    have inner {l : List (List Char)} (tails : ∀ s ∈ l, s <:+ text) : ∀ t ∈ first.rests l, t <:+ text :=
      fun t member => tail_of_word tails ((mem_rests first tails t).mp member)
    rw [rests, ihRest (inner tails), ihFirst tails]
    apply findSome?_congr
    intro s member
    have alone : ∀ t ∈ [s], t <:+ text := by
      intro t only
      rw [List.mem_singleton.mp only]
      exact tails s member
    rw [rests, ihRest (inner alone)]
  | alt first rest =>
    apply findSome?_distinct_flatMap tails
    intro s t member
    rcases List.mem_append.mp member with member | member
    · exact suffix_of_mem_rests member
    · exact suffix_of_mem_rests member
  | star body =>
    apply findSome?_distinct_flatMap tails
    intro s t member
    exact suffix_of_mem_repeated member

/-- What is preferred behind one expression and another is preferred behind the other, after what the one
leaves. -/
theorem findSome?_seq (first rest : Regex) (s : List Char) (f : List Char → Option β) :
    (rest.rests (first.rests [s])).findSome? f =
      (first.rests [s]).findSome? fun t => (rest.rests [t]).findSome? f :=
  findSome?_rests rest (fun _ member => suffix_of_mem_rests member) f

/-- The earlier alternative is preferred. -/
theorem findSome?_alt (first rest : Regex) (s : List Char) (f : List Char → Option β) :
    ((alt first rest).rests [s]).findSome? f =
      ((first.rests [s]).findSome? f).or ((rest.rests [s]).findSome? f) := by
  rw [rests, List.flatMap_singleton, findSome?_distinct s, List.findSome?_append]
  intro t member
  rcases List.mem_append.mp member with member | member
  · exact suffix_of_mem_rests member
  · exact suffix_of_mem_rests member

/-! ## Longest first -/

/-- Texts of which each is shorter than those after it. -/
def Growing (l : List (List Char)) : Prop :=
  l.Pairwise fun s t => s.length < t.length

/-- Of remains that grow, the first that leads on is the shortest of those that do. -/
theorem Growing.findSome?_eq_some_iff {l : List (List Char)} (growing : Growing l) {f : List Char → Option β}
    {b : β} : l.findSome? f = some b ↔
      ∃ s ∈ l, f s = some b ∧ ∀ t ∈ l, (f t).isSome → s.length ≤ t.length := by
  induction l with
  | nil => simp
  | cons s l ih =>
    obtain ⟨shortest, later⟩ := List.pairwise_cons.mp growing
    rw [List.findSome?_cons]
    cases found : f s with
    | some c =>
      have least : ∀ t ∈ s :: l, s.length ≤ t.length := by
        intro t member
        rcases List.mem_cons.mp member with rfl | member
        · exact Nat.le_refl _
        · exact Nat.le_of_lt (shortest t member)
      constructor
      · intro same
        exact ⟨s, List.mem_cons_self, found.trans same, fun t member _ => least t member⟩
      · rintro ⟨t, member, own, first⟩
        have less := first s List.mem_cons_self (by rw [found]; rfl)
        rcases List.mem_cons.mp member with rfl | member
        · exact found.symm.trans own
        · have more := shortest t member
          omega
    | none =>
      rw [ih later]
      constructor
      · rintro ⟨t, member, own, first⟩
        refine ⟨t, List.mem_cons_of_mem _ member, own, fun u inside leads => ?_⟩
        rcases List.mem_cons.mp inside with rfl | inside
        · rw [found] at leads
          cases leads
        · exact first u inside leads
      · rintro ⟨t, member, own, first⟩
        rcases List.mem_cons.mp member with rfl | member
        · rw [found] at own
          cases own
        · exact ⟨t, member, own, fun u inside => first u (List.mem_cons_of_mem _ inside)⟩

theorem sublist_firstOfEachLength (seen : List Nat) (l : List (List Char)) :
    (firstOfEachLength seen l).Sublist l := by
  induction l generalizing seen with
  | nil => exact List.Sublist.slnil
  | cons s l ih =>
    rw [firstOfEachLength]
    split
    · exact (ih seen).cons s
    · exact (ih _).cons_cons s

theorem Growing.distinct {l : List (List Char)} (growing : Growing l) : Growing (firstOfEachLength [] l) :=
  growing.sublist (sublist_firstOfEachLength [] l)

theorem Growing.one {l : List (List Char)} (growing : Growing l) (accepts : Char → Bool) :
    Growing (l.flatMap (Regex.one accepts)) := by
  have taken {s t : List Char} (member : t ∈ Regex.one accepts s) : s.length = t.length + 1 := by
    obtain ⟨c, -, rfl⟩ := mem_one.mp member
    rfl
  rw [Growing, List.pairwise_flatMap]
  constructor
  · intro s _
    cases s with
    | nil => exact List.Pairwise.nil
    | cons c s =>
      rw [Regex.one]
      split
      · exact List.pairwise_singleton _ _
      · exact List.Pairwise.nil
  · apply List.Pairwise.imp _ growing
    intro s t less u before v behind
    have first := taken before
    have second := taken behind
    omega

/-- Steps that are determined are repeated as often as possible first. -/
theorem growing_repeated {step : List Char → List (List Char)} (determined : ∀ s, (step s).length ≤ 1)
    (fuel : Nat) (s : List Char) :
    Growing (repeated step fuel s) ∧ ∀ t ∈ repeated step fuel s, t.length ≤ s.length := by
  induction fuel generalizing s with
  | zero =>
    constructor
    · exact List.pairwise_singleton _ _
    · intro t member
      rw [List.mem_singleton.mp member]
  | succ fuel ih =>
    have single : ((step s).filter (·.length < s.length)).length ≤ 1 :=
      Nat.le_trans (List.length_filter_le _ _) (determined s)
    rw [repeated]
    cases taken : (step s).filter (·.length < s.length) with
    | nil => exact ⟨List.pairwise_singleton _ _, by simp [firstOfEachLength]⟩
    | cons t more =>
      have none : more = [] := by
        rw [taken, List.length_cons] at single
        exact List.length_eq_zero_iff.mp (by omega)
      subst none
      have shorter : t.length < s.length := by
        have member : t ∈ (step s).filter (·.length < s.length) := by
          rw [taken]
          exact List.mem_singleton_self t
        simpa using (List.mem_filter.mp member).2
      obtain ⟨growing, bound⟩ := ih t
      rw [List.flatMap_singleton]
      constructor
      · apply Growing.distinct
        apply List.pairwise_append.mpr
        refine ⟨growing, List.pairwise_singleton _ _, fun u member v last => ?_⟩
        have less := bound u member
        rw [List.mem_singleton.mp last]
        omega
      · intro u member
        rcases List.mem_append.mp ((sublist_firstOfEachLength _ _).subset member) with member | last
        · have less := bound u member
          omega
        · rw [List.mem_singleton.mp last]

theorem growing_star {body : Regex} (determined : ∀ s, (body.rests [s]).length ≤ 1) (s : List Char) :
    Growing ((star body).rests [s]) := by
  rw [rests, List.flatMap_singleton]
  exact (growing_repeated determined s.length s).1.distinct

/-- Whether an expression takes one character. -/
def takesOne : Regex → Bool
  | .char _ | .anyChar | .set _ _ => true
  | .empty | .group _ | .seq _ _ | .alt _ _ | .star _ => false

theorem length_rests_of_takesOne {r : Regex} (single : r.takesOne = true) (s : List Char) :
    (r.rests [s]).length ≤ 1 := by
  have few (accepts : Char → Bool) : ([s].flatMap (one accepts)).length ≤ 1 := by
    rw [List.flatMap_singleton]
    cases s with
    | nil => exact Nat.zero_le 1
    | cons c s =>
      rw [one]
      split
      · exact Nat.le_refl 1
      · exact Nat.zero_le 1
  cases r with
  | char | anyChar | set => exact few _
  | _ => cases single

theorem length_of_takesOne {r : Regex} (single : r.takesOne = true) {w : List Char} (inside : w ∈ r.language) :
    w.length = 1 := by
  cases r with
  | char c => exact congrArg List.length inside
  | anyChar | set =>
    obtain ⟨c, -, rfl⟩ := inside
    rfl
  | _ => cases single

theorem growing_of_length {l : List (List Char)} (few : l.length ≤ 1) : Growing l := by
  cases l with
  | nil => exact List.Pairwise.nil
  | cons s l =>
    have none : l = [] := List.length_eq_zero_iff.mp (by simpa using few)
    subst none
    exact List.pairwise_singleton _ _

/-- Remains that grow and are all the same are one at most. -/
theorem Growing.length_le {l : List (List Char)} (growing : Growing l)
    (same : ∀ s ∈ l, ∀ t ∈ l, s = t) : l.length ≤ 1 := by
  match l with
  | [] | [_] => simp
  | s :: t :: l =>
    have less := (List.pairwise_cons.mp growing).1 t List.mem_cons_self
    rw [same s List.mem_cons_self t (List.mem_cons_of_mem _ List.mem_cons_self)] at less
    exact absurd less (Nat.lt_irrefl _)

end LinterClient.Regex
