import ContractLinker.Path
import Mathlib.Data.List.Basic

/-!
# Clean paths

What cleaning leaves is settled: no segment is empty or `.`, and `..` stands only at the front of a
path without a root. So cleaning a clean path again changes nothing: `clean_clean`.
-/

namespace ContractLinker

-- ---------------------------------------------------------------------------
-- Pieces
-- ---------------------------------------------------------------------------

namespace Text

variable {separator : Char} {s piece : List Char} {pieces : List (List Char)}

theorem not_mem_of_mem_split (h : piece ∈ split separator s) : separator ∉ piece := by
  induction s generalizing piece with
  | nil =>
    rw [split, List.mem_singleton] at h
    simp [h]
  | cons c s ih =>
    rw [split] at h
    split at h
    · rcases List.mem_cons.mp h with rfl | h
      · simp
      · exact ih h
    · next hc =>
      split at h
      · next he => exact absurd he (split_ne_nil separator s)
      · next first others he =>
        rw [he] at ih
        rcases List.mem_cons.mp h with rfl | h
        · simpa [Ne.symm hc] using ih List.mem_cons_self
        · exact ih (List.mem_cons_of_mem _ h)

/-- A separator ends one piece and begins another. -/
theorem split_append_cons (s t : List Char) :
    split separator (s ++ separator :: t) = split separator s ++ split separator t := by
  induction s with
  | nil => simp [split]
  | cons c s ih =>
    obtain ⟨first, others, hs⟩ := List.exists_cons_of_ne_nil (split_ne_nil separator s)
    by_cases hc : c = separator
    · simp [split, hc, ih]
    · simp [split, hc, ih, hs]

theorem split_of_not_mem (h : separator ∉ s) : split separator s = [s] := by
  induction s with
  | nil => rfl
  | cons c s ih =>
    rw [List.mem_cons, not_or] at h
    rw [split, if_neg (Ne.symm h.1), ih h.2]

/-- Nothing is lost in splitting. -/
theorem intercalate_split (separator : Char) (s : List Char) :
    List.intercalate [separator] (split separator s) = s := by
  induction s with
  | nil => rfl
  | cons c s ih =>
    obtain ⟨first, others, hs⟩ := List.exists_cons_of_ne_nil (split_ne_nil separator s)
    by_cases hc : c = separator
    · rw [split, if_pos hc, List.intercalate_cons_of_ne_nil (split_ne_nil separator s), ih, hc]
      rfl
    · rw [hs] at ih
      rw [split, if_neg hc, hs, ← ih]
      cases others <;> simp

theorem split_intercalate (h : ∀ p ∈ pieces, separator ∉ p) (hne : pieces ≠ []) :
    split separator (List.intercalate [separator] pieces) = pieces := by
  induction pieces with
  | nil => exact absurd rfl hne
  | cons p pieces ih =>
    cases pieces with
    | nil => simpa using split_of_not_mem (h p List.mem_cons_self)
    | cons q pieces =>
      have hrest := ih (fun r hr => h r (List.mem_cons_of_mem p hr)) (by simp)
      rw [List.intercalate_cons_cons, List.append_assoc, List.singleton_append,
        split_append_cons, split_of_not_mem (h p List.mem_cons_self), hrest, List.singleton_append]

end Text

namespace Path

-- ---------------------------------------------------------------------------
-- Followed segments
-- ---------------------------------------------------------------------------

section
variable {root path : List Char} {segments : List Segment} {s : Segment}

/-- The segments of a path that the file system follows. -/
def followed (path : List Char) : List Segment :=
  (pieces path).filter fun p => p ≠ [] ∧ p ≠ here

theorem mem_followed (h : s ∈ followed path) : s ≠ [] ∧ s ≠ here ∧ '/' ∉ s := by
  obtain ⟨hmem, hs⟩ := List.mem_filter.mp h
  rw [decide_eq_true_eq] at hs
  exact ⟨hs.1, hs.2, Text.not_mem_of_mem_split hmem⟩

theorem followed_append_slash (front back : List Char) :
    followed (front ++ '/' :: back) = followed front ++ followed back := by
  rw [followed, pieces, Text.split_append_cons, List.filter_append]
  rfl

theorem rootOf_cases (path : List Char) :
    rootOf path = [] ∨ rootOf path = ['/'] ∨ rootOf path = ['/', '/'] := by
  unfold rootOf
  split <;> simp

theorem rootOf_of_head {text : List Char} (h : ∀ c ∈ text.head?, c ≠ '/') :
    rootOf text = [] ∧ rootOf ('/' :: text) = ['/'] ∧ rootOf ('/' :: '/' :: text) = ['/', '/'] := by
  cases text with
  | nil => decide
  | cons c text =>
    have hc : c ≠ '/' := h c rfl
    simp [rootOf, hc]

theorem head?_intercalate (h : ∀ s ∈ segments, s ≠ [] ∧ s ≠ here ∧ '/' ∉ s) :
    ∀ c ∈ (List.intercalate ['/'] segments).head?, c ≠ '/' := by
  rintro c hc rfl
  cases segments with
  | nil => cases hc
  | cons s segments =>
    obtain ⟨hne, -, hslash⟩ := h s List.mem_cons_self
    refine hslash (List.mem_of_mem_head? ?_)
    cases segments with
    | nil => simpa using hc
    | cons next segments =>
      rw [List.intercalate_cons_cons, List.append_assoc, List.head?_append_of_ne_nil _ hne] at hc
      exact hc

theorem followed_intercalate (h : ∀ s ∈ segments, s ≠ [] ∧ s ≠ here ∧ '/' ∉ s) :
    followed (List.intercalate ['/'] segments) = segments := by
  by_cases hne : segments = []
  · subst hne
    decide
  · rw [followed, pieces, Text.split_intercalate (fun s hs => (h s hs).2.2) hne,
      List.filter_eq_self]
    intro s hs
    simpa using ⟨(h s hs).1, (h s hs).2.1⟩

/-- Segments that are followed are followed in what is printed of them. -/
theorem followed_print (hroot : root = [] ∨ root = ['/'] ∨ root = ['/', '/'])
    (h : ∀ s ∈ segments, s ≠ [] ∧ s ≠ here ∧ '/' ∉ s) :
    rootOf (print root segments) = root ∧ followed (print root segments) = segments := by
  have hread : rootOf (root ++ List.intercalate ['/'] segments) = root ∧
      followed (root ++ List.intercalate ['/'] segments) = segments := by
    obtain ⟨hnone, hone, htwo⟩ := rootOf_of_head (head?_intercalate h)
    have hslash : ∀ text : List Char, followed ('/' :: text) = followed text := fun text =>
      followed_append_slash [] text
    rcases hroot with rfl | rfl | rfl
    · exact ⟨hnone, followed_intercalate h⟩
    · exact ⟨hone, (hslash _).trans (followed_intercalate h)⟩
    · exact ⟨htwo, (hslash _).trans ((hslash _).trans (followed_intercalate h))⟩
  unfold print
  split
  · next he =>
    obtain ⟨rfl, hnil⟩ := List.append_eq_nil_iff.mp he
    rw [List.nil_append, hnil] at hread
    exact ⟨rfl, hread.2⟩
  · exact hread

end

-- ---------------------------------------------------------------------------
-- Walks
-- ---------------------------------------------------------------------------

variable {rooted : Bool} {walked : List Segment} {piece : Segment} {pieces : List Segment}

theorem follow_skipped (h : piece = [] ∨ piece = here) : follow rooted walked piece = walked := by
  simp [follow, h]

theorem foldl_follow_followed (path : List Char) :
    (followed path).foldl (follow rooted) walked =
      (Path.pieces path).foldl (follow rooted) walked := by
  rw [followed]
  induction Path.pieces path generalizing walked with
  | nil => rfl
  | cons piece rest ih =>
    by_cases hskip : piece = [] ∨ piece = here
    · rw [List.filter_cons_of_neg (by simpa [imp_iff_not_or] using hskip), ih, List.foldl_cons,
        follow_skipped hskip]
    · rw [List.filter_cons_of_pos (by simpa using hskip), List.foldl_cons, ih, List.foldl_cons]

/-- Segments that following a path can leave, innermost first. -/
inductive Walked (rooted : Bool) : List Segment → Prop
  | nil : Walked rooted []
  | up {walked : List Segment} : rooted = false → (∀ s ∈ walked, s = parent) →
      Walked rooted walked → Walked rooted (parent :: walked)
  | down {s : Segment} {walked : List Segment} : s ≠ [] → s ≠ here → s ≠ parent → '/' ∉ s →
      Walked rooted walked → Walked rooted (s :: walked)

theorem Walked.follow (h : Walked rooted walked) (hp : '/' ∉ piece) :
    Walked rooted (follow rooted walked piece) := by
  unfold Path.follow
  split
  · exact h
  next hskip =>
  rw [not_or] at hskip
  split
  · cases h with
    | nil =>
      cases rooted with
      | true => exact .nil
      | false => exact .up rfl (by simp) .nil
    | up hr hall hrest =>
      exact .up hr (by simpa using hall) (.up hr hall hrest)
    | down _ _ hparent _ hrest => simpa [hparent] using hrest
  · next hparent => exact .down hskip.1 hskip.2 hparent hp h

theorem walked_foldl (h : ∀ p ∈ pieces, '/' ∉ p) (hw : Walked rooted walked) :
    Walked rooted (pieces.foldl (Path.follow rooted) walked) := by
  induction pieces generalizing walked with
  | nil => exact hw
  | cons p pieces ih =>
    exact ih (fun q hq => h q (List.mem_cons_of_mem p hq)) (hw.follow (h p List.mem_cons_self))

/-- Following the segments of a walk leads where the walk has led. -/
theorem Walked.settle_reverse (h : Walked rooted walked) :
    settle rooted walked.reverse = walked.reverse := by
  suffices hfold : walked.reverse.foldl (Path.follow rooted) [] = walked by rw [settle, hfold]
  induction h with
  | nil => rfl
  | @up walked hr hall _ ih =>
    rw [List.reverse_cons, List.foldl_append, ih]
    cases walked with
    | nil => simp [Path.follow, hr, parent, here]
    | cons last rest => simp [Path.follow, hall last List.mem_cons_self, parent, here]
  | down hne hhere hparent _ _ ih =>
    rw [List.reverse_cons, List.foldl_append, ih]
    simp [Path.follow, hne, hhere, hparent]

theorem Walked.mem (h : Walked rooted walked) {s : Segment} (hs : s ∈ walked) :
    s ≠ [] ∧ s ≠ here ∧ '/' ∉ s := by
  induction h with
  | nil => cases hs
  | up _ _ _ ih =>
    rcases List.mem_cons.mp hs with rfl | hs
    · decide
    · exact ih hs
  | down hne hhere _ hslash _ ih =>
    rcases List.mem_cons.mp hs with rfl | hs
    · exact ⟨hne, hhere, hslash⟩
    · exact ih hs

/-- Reading a printed walk gives its root and its segments back. -/
theorem Walked.read_print {root : List Char}
    (hroot : root = [] ∨ root = ['/'] ∨ root = ['/', '/'])
    (h : Walked (!root.isEmpty) pieces.reverse) :
    rootOf (print root pieces) = root ∧
      settle (!root.isEmpty) (Path.pieces (print root pieces)) = pieces := by
  obtain ⟨hread, hfollowed⟩ :=
    followed_print hroot fun p hp => h.mem (List.mem_reverse.mpr hp)
  refine ⟨hread, ?_⟩
  rw [settle, ← foldl_follow_followed, hfollowed]
  simpa [settle] using h.settle_reverse

theorem Walked.cleanChars_print {root : List Char}
    (hroot : root = [] ∨ root = ['/'] ∨ root = ['/', '/'])
    (h : Walked (!root.isEmpty) pieces.reverse) :
    cleanChars (print root pieces) = print root pieces := by
  obtain ⟨hr, hs⟩ := h.read_print hroot
  rw [cleanChars, hr, hs]

/-- What following the pieces of a path leaves. -/
theorem walked_pieces (rooted : Bool) (path : List Char) :
    Walked rooted (settle rooted (Path.pieces path)).reverse := by
  rw [settle, List.reverse_reverse]
  exact walked_foldl (fun p hp => Text.not_mem_of_mem_split hp) .nil

theorem cleanChars_cleanChars (path : List Char) :
    cleanChars (cleanChars path) = cleanChars path :=
  (walked_pieces _ path).cleanChars_print (rootOf_cases path)

theorem clean_clean (path : String) : clean (clean path) = clean path := by
  simp [clean, cleanChars_cleanChars]

end Path

end ContractLinker
