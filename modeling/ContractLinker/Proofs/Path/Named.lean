import ContractLinker.Proofs.Path.Canonical

/-!
# Paths with a name at their end

Where a path leads from a directory is known once its segments are. If the last of those that are
followed is not `..`, it is a name, and cleaning the path keeps it: `Named.isName`.
-/

namespace ContractLinker.Path

variable {path front : List Char} {s : Segment}

-- ---------------------------------------------------------------------------
-- Names
-- ---------------------------------------------------------------------------

/-- A path that ends in a name. The others lead to directories, wherever they lead. -/
def Named (path : String) : Prop := ∃ s ∈ (followed path.toList).getLast?, s ≠ parent

/-- A name that a file may have in a directory. -/
structure IsName (s : Segment) : Prop where
  ne_nil : s ≠ []
  ne_here : s ≠ here
  ne_parent : s ≠ parent
  not_mem : '/' ∉ s

theorem IsName.followed (h : IsName s) : followed s = [s] := by
  simp [Path.followed, pieces, Text.split_of_not_mem h.not_mem, h.ne_nil, h.ne_here]

theorem IsName.head?_ne (h : IsName s) : s.head? ≠ some '/' := fun hs =>
  h.not_mem (List.mem_of_mem_head? hs)

theorem toList_tidy (path : String) :
    (tidy path).toList = print (rootOf path.toList) (followed path.toList) :=
  String.toList_ofList

/-- A tidied path has the root and the segments of the path. -/
theorem followed_tidy (path : String) :
    rootOf (tidy path).toList = rootOf path.toList ∧
      followed (tidy path).toList = followed path.toList := by
  rw [toList_tidy]
  exact followed_print (rootOf_cases path.toList) fun s hs => mem_followed hs

theorem tidy_tidy (path : String) : tidy (tidy path) = tidy path := by
  obtain ⟨hroot, hfollowed⟩ := followed_tidy path
  rw [← String.toList_inj, toList_tidy (tidy path), hroot, hfollowed, toList_tidy]

-- ---------------------------------------------------------------------------
-- The last segment
-- ---------------------------------------------------------------------------

theorem lastSegmentChars_append (hs : '/' ∉ s)
    (hfront : front = [] ∨ front.getLast? = some '/') : lastSegmentChars (front ++ s) = s := by
  have hall : ∀ c ∈ s.reverse, decide (c ≠ '/') = true := by
    intro c hc
    rw [decide_eq_true_eq]
    rintro rfl
    exact hs (List.mem_reverse.mp hc)
  have hstop : front.reverse.takeWhile (· ≠ '/') = [] := by
    rcases hfront with rfl | hlast
    · rfl
    · rw [← List.head?_reverse] at hlast
      obtain ⟨rest, hrest⟩ := List.head?_eq_some_iff.mp hlast
      simp [hrest]
  rw [lastSegmentChars, List.reverse_append, List.takeWhile_append_of_pos hall, hstop,
    List.append_nil, List.reverse_reverse]

theorem exists_intercalate_concat (segments : List Segment) (s : Segment) :
    ∃ front, List.intercalate ['/'] (segments ++ [s]) = front ++ s ∧
      (front = [] ∨ front.getLast? = some '/') := by
  induction segments with
  | nil => exact ⟨[], by simp, .inl rfl⟩
  | cons first segments ih =>
    obtain ⟨front, he, hfront⟩ := ih
    refine ⟨first ++ '/' :: front, ?_, .inr ?_⟩
    · rw [List.cons_append, List.intercalate_cons_of_ne_nil (by simp), he]
      simp
    · rcases hfront with rfl | hlast
      · simp
      · simp [List.getLast?_append, List.getLast?_cons, hlast]

theorem lastSegmentChars_cleanChars {names : List Segment} (h : followed path = names ++ [s])
    (hs : s ≠ parent) : lastSegmentChars (cleanChars path) = s := by
  obtain ⟨hne, hhere, hslash⟩ : s ≠ [] ∧ s ≠ here ∧ '/' ∉ s :=
    mem_followed (h ▸ List.mem_append_right names List.mem_cons_self)
  have hsettle : ∃ up, settle (!(rootOf path).isEmpty) (pieces path) = up ++ [s] := by
    refine ⟨(names.foldl (follow (!(rootOf path).isEmpty)) []).reverse, ?_⟩
    rw [settle, ← foldl_follow_followed, h, List.foldl_concat, follow_down hne hhere hs,
      List.reverse_cons]
  obtain ⟨up, hup⟩ := hsettle
  obtain ⟨front, he, hfront⟩ := exists_intercalate_concat up s
  have htext : cleanChars path = (rootOf path ++ front) ++ s := by
    rw [cleanChars, hup, print, he, List.append_assoc]
    split
    · next hnil => simp [hne] at hnil
    · rfl
  rw [htext]
  refine lastSegmentChars_append hslash ?_
  rcases hfront with rfl | hlast
  · rcases rootOf_cases path with hroot | hroot | hroot <;> simp [hroot]
  · exact .inr (by simp [List.getLast?_append, hlast])

/-- Cleaning a path keeps the name at its end. -/
theorem Named.isName {path : String} (h : Named path) :
    IsName (lastSegment (clean path)).toList := by
  obtain ⟨s, hlast, hs⟩ := h
  obtain ⟨names, hnames⟩ := List.getLast?_eq_some_iff.mp hlast
  obtain ⟨hne, hhere, hslash⟩ := mem_followed (List.mem_of_getLast? hlast)
  rw [lastSegment, clean, String.toList_ofList, String.toList_ofList,
    lastSegmentChars_cleanChars hnames hs]
  exact ⟨hne, hhere, hs, hslash⟩

end ContractLinker.Path
