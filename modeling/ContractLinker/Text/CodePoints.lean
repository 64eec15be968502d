/-!
# Sets of code points

A set is kept as ascending, disjoint, inclusive ranges. A search stops at the first range that
starts past the code point, so a question about a small code point reads only a few ranges.
-/

namespace ContractLinker.Text

/-- Ascending, disjoint, inclusive ranges of code points. -/
abbrev CodePoints := List (Nat × Nat)

/-- Whether `n` lies in one of the ranges. -/
def CodePoints.has : CodePoints → Nat → Bool
  | [], _ => false
  | (first, last) :: rest, n =>
    if n < first then false else if n ≤ last then true else CodePoints.has rest n

/-- Each range is non-empty, and the next one starts beyond it. -/
def CodePoints.Ascending : CodePoints → Prop
  | [] => True
  | (first, last) :: rest =>
    first ≤ last ∧ (∀ range ∈ rest.head?, last < range.1) ∧ CodePoints.Ascending rest

instance CodePoints.decidableAscending : (ranges : CodePoints) → Decidable ranges.Ascending
  | [] => .isTrue trivial
  | (first, last) :: rest =>
    have := CodePoints.decidableAscending rest
    inferInstanceAs (Decidable (first ≤ last ∧ (∀ range ∈ rest.head?, last < range.1) ∧
      CodePoints.Ascending rest))

theorem CodePoints.exists_of_has {ranges : CodePoints} {n : Nat} (h : ranges.has n = true) :
    ∃ range ∈ ranges, range.1 ≤ n ∧ n ≤ range.2 := by
  induction ranges with
  | nil => simp [CodePoints.has] at h
  | cons range rest ih =>
    obtain ⟨first, last⟩ := range
    simp only [CodePoints.has] at h
    split at h
    · simp at h
    · split at h
      · exact ⟨(first, last), by simp, by omega, by omega⟩
      · obtain ⟨range, hm, hr⟩ := ih h
        exact ⟨range, List.mem_cons_of_mem _ hm, hr⟩

end ContractLinker.Text
