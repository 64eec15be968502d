import ContractLinker.Proofs.Path
import Mathlib.Data.List.Induction

/-!
# Canonical paths

`canonical_paths`: cleaning gives a path its one canonical text (`IsClean`) and leaves canonical
texts alone, and where a joined path leads depends only on the clean forms of its parts. The reason
is `foldl_follow_settle`: following what a path without a root settles to is following the path,
wherever one starts.
-/

namespace ContractLinker.Path

variable {rooted : Bool} {walked : List Segment} {root path : List Char} {segments : List Segment}

-- ---------------------------------------------------------------------------
-- Canonical texts
-- ---------------------------------------------------------------------------

/-- The segments of a canonical path. Only without a root there is a way up, and it comes first. -/
structure Settled (root : List Char) (segments : List Segment) : Prop where
  root_cases : root = [] ∨ root = ['/'] ∨ root = ['/', '/']
  segment : ∀ s ∈ segments, s ≠ [] ∧ s ≠ here ∧ '/' ∉ s
  parents : ∃ n downs, segments = List.replicate n parent ++ downs ∧ parent ∉ downs ∧
    (root = [] ∨ n = 0)

/-- The canonical texts: `.`, or a root and segments between single slashes. -/
inductive IsClean : List Char → Prop
  | here : IsClean here
  | settled {root : List Char} {segments : List Segment} : Settled root segments →
      root ++ List.intercalate ['/'] segments ≠ [] →
      IsClean (root ++ List.intercalate ['/'] segments)

theorem Walked.exists_parents (h : Walked rooted walked) :
    ∃ n downs, walked.reverse = List.replicate n parent ++ downs ∧ parent ∉ downs ∧
      (rooted = false ∨ n = 0) := by
  induction h with
  | nil => exact ⟨0, [], rfl, List.not_mem_nil, .inr rfl⟩
  | @up walked hr hall _ _ =>
    refine ⟨walked.length + 1, [], ?_, List.not_mem_nil, .inl hr⟩
    rw [List.append_nil, List.eq_replicate_iff]
    refine ⟨by simp, fun s hs => ?_⟩
    rcases List.mem_cons.mp (List.mem_reverse.mp hs) with rfl | hs
    · rfl
    · exact hall s hs
  | down _ _ hparent _ _ ih =>
    obtain ⟨n, downs, he, hdowns, hn⟩ := ih
    refine ⟨n, downs ++ [_], by rw [List.reverse_cons, he, List.append_assoc], ?_, hn⟩
    simpa [hdowns] using Ne.symm hparent

theorem Walked.settled (h : Walked (!root.isEmpty) segments.reverse)
    (hroot : root = [] ∨ root = ['/'] ∨ root = ['/', '/']) : Settled root segments := by
  refine ⟨hroot, fun s hs => ?_, ?_⟩
  · exact h.mem (List.mem_reverse.mpr hs)
  · simpa using h.exists_parents

theorem walked_parents (n : Nat) : Walked false (List.replicate n parent) := by
  induction n with
  | zero => exact .nil
  | succ n ih => exact .up rfl (fun s hs => List.eq_of_mem_replicate hs) ih

theorem Walked.of_settled (h : Settled root segments) :
    Walked (!root.isEmpty) segments.reverse := by
  obtain ⟨n, downs, rfl, hdowns, hn⟩ := h.parents
  have hups : Walked (!root.isEmpty) (List.replicate n parent) := by
    rcases hn with rfl | rfl
    · exact walked_parents n
    · exact .nil
  have hsegment : ∀ s ∈ downs, s ≠ [] ∧ s ≠ here ∧ '/' ∉ s :=
    fun s hs => h.segment s (List.mem_append_right _ hs)
  clear h
  rw [List.reverse_append, List.reverse_replicate]
  induction downs using List.reverseRecOn with
  | nil => exact hups
  | append_singleton downs s ih =>
    simp only [List.mem_append, List.mem_singleton, not_or] at hdowns hsegment
    obtain ⟨hne, hhere, hslash⟩ := hsegment s (.inr rfl)
    rw [List.reverse_append]
    exact .down hne hhere (Ne.symm hdowns.2) hslash
      (ih hdowns.1 fun t ht => hsegment t (.inl ht))

theorem isClean_print (h : Settled root segments) : IsClean (print root segments) := by
  unfold print
  split
  · exact .here
  · next hne => exact .settled h hne

/-- The canonical texts are those that cleaning leaves alone. -/
theorem isClean_iff : IsClean path ↔ cleanChars path = path := by
  constructor
  · intro h
    cases h with
    | here => rfl
    | @settled root segments h hne =>
      have hprint : print root segments = root ++ List.intercalate ['/'] segments := by
        unfold print
        split
        · next he => exact absurd he hne
        · rfl
      rw [← hprint]
      exact (Walked.of_settled h).cleanChars_print h.root_cases
  · intro h
    rw [← h]
    exact isClean_print ((walked_pieces _ path).settled (rootOf_cases path))

-- ---------------------------------------------------------------------------
-- Joined paths
-- ---------------------------------------------------------------------------

theorem follow_down {piece : Segment} (hne : piece ≠ []) (hhere : piece ≠ here)
    (hparent : piece ≠ parent) : follow rooted walked piece = piece :: walked := by
  simp [follow, hne, hhere, hparent]

theorem follow_parent_cons {last : Segment} (h : last ≠ parent) :
    follow rooted (last :: walked) parent = walked := by
  have hskip : ¬ (parent = [] ∨ parent = here) := by decide
  simp [follow, h, hskip]

theorem follow_parents : follow false (parent :: walked) parent = parent :: parent :: walked := by
  have hskip : ¬ (parent = [] ∨ parent = here) := by decide
  simp [follow, hskip]

/-- One more piece of a path without a root, behind what the pieces before it have settled to. -/
theorem foldl_follow_reverse {settled : List Segment} (h : Walked false settled)
    (piece : Segment) :
    (follow false settled piece).reverse.foldl (follow rooted) walked =
      follow rooted (settled.reverse.foldl (follow rooted) walked) piece := by
  by_cases hskip : piece = [] ∨ piece = here
  · rw [follow_skipped hskip, follow_skipped hskip]
  rw [not_or] at hskip
  by_cases hparent : piece = parent
  · subst hparent
    cases h with
    | nil => rfl
    | up _ _ _ => rw [follow_parents, List.reverse_cons, List.foldl_concat]
    | down hne hhere hdown _ _ =>
      -- What the way up takes back is what was followed last.
      rw [follow_parent_cons hdown, List.reverse_cons, List.foldl_concat,
        follow_down hne hhere hdown, follow_parent_cons hdown]
  · rw [follow_down hskip.1 hskip.2 hparent, List.reverse_cons, List.foldl_concat]

/-- Following what a path without a root settles to is following the path. -/
theorem foldl_follow_settle {pieces : List Segment} (h : ∀ p ∈ pieces, '/' ∉ p) :
    (settle false pieces).foldl (follow rooted) walked = pieces.foldl (follow rooted) walked := by
  induction pieces using List.reverseRecOn with
  | nil => rfl
  | append_singleton pieces p ih =>
    have hpieces : ∀ q ∈ pieces, '/' ∉ q := fun q hq => h q (List.mem_append_left _ hq)
    have hwalked : Walked false (pieces.foldl (follow false) []) := walked_foldl hpieces .nil
    calc
      _ = (follow false (pieces.foldl (follow false) []) p).reverse.foldl (follow rooted) walked :=
        by rw [settle, List.foldl_concat]
      _ = follow rooted ((settle false pieces).foldl (follow rooted) walked) p :=
        foldl_follow_reverse hwalked p
      _ = _ := by rw [ih hpieces, List.foldl_concat]

theorem rootOf_eq_nil_iff : rootOf path = [] ↔ path.head? ≠ some '/' := by
  cases path with
  | nil => simp [rootOf]
  | cons c rest =>
    by_cases hc : c = '/'
    · subst hc
      unfold rootOf
      split <;> simp_all
    · simp [rootOf, hc]

theorem rootOf_append {text : List Char} (hne : path ≠ [])
    (h : path.getLast? = some '/' → text.head? ≠ some '/') :
    rootOf (path ++ text) = rootOf path := by
  have hhead : path.getLast? = some '/' → ∀ c ∈ text.head?, c ≠ '/' := by
    rintro hlast c hc rfl
    exact h hlast hc
  match path with
  | [a] =>
    by_cases ha : a = '/'
    · subst ha
      exact (rootOf_of_head (hhead rfl)).2.1
    · simp [rootOf, ha]
  | [a, b] =>
    by_cases ha : a = '/'
    · by_cases hb : b = '/'
      · subst ha hb
        exact (rootOf_of_head (hhead rfl)).2.2
      · simp [rootOf, ha, hb]
    · simp [rootOf, ha]
  | a :: b :: c :: rest =>
    by_cases ha : a = '/'
    · by_cases hb : b = '/'
      · by_cases hc : c = '/'
        · simp [rootOf, ha, hb, hc]
        · simp [rootOf, ha, hb, hc]
      · simp [rootOf, ha, hb]
    · simp [rootOf, ha]

section
variable {directory : List Char}

theorem followed_joinChars (directory : List Char) (h : path.head? ≠ some '/') :
    followed (joinChars directory path) = followed directory ++ followed path := by
  unfold joinChars
  rw [if_neg h]
  split
  · next hd =>
    rcases List.eq_nil_or_concat directory with rfl | ⟨front, c, rfl⟩
    · rfl
    · obtain rfl : c = '/' := by simpa using hd
      have hnil : followed [] = [] := by decide
      rw [List.concat_eq_append, followed_append_slash, hnil, List.append_nil, List.append_assoc,
        List.singleton_append, followed_append_slash]
  · exact followed_append_slash directory path

/-- A relative path is followed from where the directory leads. -/
theorem foldl_follow_joinChars (h : path.head? ≠ some '/') :
    (pieces (joinChars directory path)).foldl (follow rooted) walked =
      (pieces path).foldl (follow rooted) ((pieces directory).foldl (follow rooted) walked) := by
  simp only [← foldl_follow_followed, followed_joinChars directory h, List.foldl_append]

theorem rootOf_joinChars (h : path.head? ≠ some '/') :
    rootOf (joinChars directory path) = rootOf directory := by
  unfold joinChars
  rw [if_neg h]
  split
  · by_cases hne : directory = []
    · subst hne
      exact rootOf_eq_nil_iff.mpr h
    · exact rootOf_append hne fun _ => h
  · next hd =>
    rw [not_or] at hd
    exact rootOf_append hd.1 fun hlast => absurd hlast hd.2

end

theorem cleanChars_joinChars_relative (directory : List Char) (h : path.head? ≠ some '/') :
    cleanChars (joinChars directory path) = print (rootOf directory)
      ((pieces path).foldl (follow (!(rootOf directory).isEmpty))
        ((pieces directory).foldl (follow (!(rootOf directory).isEmpty)) [])).reverse := by
  rw [cleanChars, rootOf_joinChars h, settle, foldl_follow_joinChars h]

theorem rootOf_cleanChars (path : List Char) : rootOf (cleanChars path) = rootOf path :=
  ((walked_pieces _ path).read_print (rootOf_cases path)).1

theorem settle_pieces_cleanChars (path : List Char) :
    settle (!(rootOf path).isEmpty) (pieces (cleanChars path)) =
      settle (!(rootOf path).isEmpty) (pieces path) :=
  ((walked_pieces _ path).read_print (rootOf_cases path)).2

/-- A relative path and its clean form lead to the same place from anywhere. -/
theorem foldl_follow_cleanChars (h : path.head? ≠ some '/') :
    (pieces (cleanChars path)).foldl (follow rooted) walked =
      (pieces path).foldl (follow rooted) walked := by
  have hsettle := settle_pieces_cleanChars path
  rw [rootOf_eq_nil_iff.mpr h] at hsettle
  calc
    _ = (settle false (pieces (cleanChars path))).foldl (follow rooted) walked :=
      (foldl_follow_settle fun p hp => Text.not_mem_of_mem_split hp).symm
    _ = (settle false (pieces path)).foldl (follow rooted) walked :=
      congrArg (List.foldl (follow rooted) walked) hsettle
    _ = _ := foldl_follow_settle fun p hp => Text.not_mem_of_mem_split hp

theorem cleanChars_joinChars (directory path : List Char) :
    cleanChars (joinChars (cleanChars directory) (cleanChars path)) =
      cleanChars (joinChars directory path) := by
  have hhead : (cleanChars path).head? = some '/' ↔ path.head? = some '/' := by
    rw [← not_iff_not, ← ne_eq, ← ne_eq, ← rootOf_eq_nil_iff, ← rootOf_eq_nil_iff,
      rootOf_cleanChars]
  by_cases h : path.head? = some '/'
  · rw [joinChars, joinChars, if_pos h, if_pos (hhead.mpr h), cleanChars_cleanChars]
  · have h' : (cleanChars path).head? ≠ some '/' := fun hc => h (hhead.mp hc)
    have hdirectory : (pieces (cleanChars directory)).foldl
          (follow (!(rootOf directory).isEmpty)) [] =
        (pieces directory).foldl (follow (!(rootOf directory).isEmpty)) [] :=
      List.reverse_injective (settle_pieces_cleanChars directory)
    rw [cleanChars_joinChars_relative directory h,
      cleanChars_joinChars_relative (cleanChars directory) h', rootOf_cleanChars,
      hdirectory, foldl_follow_cleanChars h]

/-- Cleaning a path gives its one canonical text, and the canonical texts are those that it leaves
alone. Where a path leads from a directory depends on the clean forms of the two, and where the
location of an import leads from a file, on those of the file's directory and of the location. -/
theorem canonical_paths :
    (∀ path : String, IsClean (clean path).toList ∧ clean (clean path) = clean path ∧
      (IsClean path.toList ↔ clean path = path)) ∧
    (∀ directory path : String,
      clean (join directory path) = clean (join (clean directory) (clean path))) ∧
    ∀ base location : String,
      locate base location = clean (join (clean (Path.directory base)) (clean location)) := by
  have hjoin : ∀ directory path : String,
      clean (join directory path) = clean (join (clean directory) (clean path)) := by
    intro directory path
    simp only [clean, join, String.toList_ofList, cleanChars_joinChars]
  refine ⟨fun path => ⟨?_, clean_clean path, ?_⟩, hjoin, fun base location => hjoin _ _⟩
  · rw [isClean_iff, clean, String.toList_ofList, cleanChars_cleanChars]
  · rw [isClean_iff, clean, ← String.toList_inj, String.toList_ofList]

example : clean "//a/../../b/./c//" = "//b/c" := by decide +kernel

end ContractLinker.Path
