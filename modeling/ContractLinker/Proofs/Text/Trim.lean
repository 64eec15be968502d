import ContractLinker.Text.Blank
import Mathlib.Data.List.TakeWhile

/-!
# Trimmed texts

What is dropped at the ends of a text, and which texts lose nothing. `trim_padded`: blanks around a
trimmed text are what trimming takes off.
-/

namespace ContractLinker.Text

variable {p : Char → Bool} {c : Char} {s front back : List Char}

-- ---------------------------------------------------------------------------
-- The end of a text
-- ---------------------------------------------------------------------------

/-- What is dropped at the end of a text, and where dropping stops. -/
theorem dropTrailing_cut (p : Char → Bool) (s : List Char) :
    ∃ back, s = dropTrailing p s ++ back ∧ (∀ c ∈ back, p c = true) ∧
      ∀ c ∈ (dropTrailing p s).getLast?, p c = false := by
  refine ⟨(s.reverse.takeWhile p).reverse, ?_, fun c hc => ?_, fun c hc => ?_⟩
  · rw [dropTrailing, ← List.reverse_append, List.takeWhile_append_dropWhile, List.reverse_reverse]
  · exact List.mem_takeWhile_imp (List.mem_reverse.mp hc)
  · rw [dropTrailing, List.getLast?_reverse] at hc
    have hnot := List.head?_dropWhile_not p s.reverse
    rw [Option.mem_def.mp hc] at hnot
    exact hnot

theorem dropTrailing_append (front : List Char) (h : ∀ c ∈ back, p c = true) :
    dropTrailing p (front ++ back) = dropTrailing p front := by
  rw [dropTrailing, List.reverse_append, List.dropWhile_append_of_pos (by simpa using h)]
  rfl

theorem dropTrailing_append_cons (front back : List Char) (h : p c = false) :
    dropTrailing p (front ++ c :: back) = front ++ c :: dropTrailing p back := by
  rw [dropTrailing, List.reverse_append, List.reverse_cons, List.append_assoc,
    List.dropWhile_append]
  split
  · next hnil =>
    rw [List.isEmpty_iff] at hnil
    simp [dropTrailing, hnil, h]
  · simp [dropTrailing]

theorem dropTrailing_of_getLast? (h : ∀ c ∈ s.getLast?, p c = false) : dropTrailing p s = s := by
  rcases List.eq_nil_or_concat s with rfl | ⟨front, c, rfl⟩
  · rfl
  · rw [List.concat_eq_append] at h ⊢
    exact dropTrailing_append_cons front [] (h c (by simp))

-- ---------------------------------------------------------------------------
-- Blanks around a text
-- ---------------------------------------------------------------------------

/-- A text of blanks only. -/
def Blank (s : List Char) : Prop := ∀ c ∈ s, isBlank c = true

instance decidableBlank (s : List Char) : Decidable (Blank s) :=
  decidable_of_iff (s.all isBlank = true) List.all_eq_true

/-- A text with no blank at its ends. -/
structure Trimmed (s : List Char) : Prop where
  head : ∀ c ∈ s.head?, isBlank c = false
  last : ∀ c ∈ s.getLast?, isBlank c = false

instance decidableTrimmed (s : List Char) : Decidable (Trimmed s) :=
  decidable_of_iff (s.head?.all (!isBlank ·) = true ∧ s.getLast?.all (!isBlank ·) = true) <| by
    simp only [Option.all_eq_true, Bool.not_eq_true']
    exact ⟨fun h => ⟨h.1, h.2⟩, fun h => ⟨h.head, h.last⟩⟩

theorem trim_blank_append (s : List Char) (h : Blank front) : trim (front ++ s) = trim s := by
  rw [trim, List.dropWhile_append_of_pos h, trim]

theorem trim_append_blank (s : List Char) (h : Blank back) : trim (s ++ back) = trim s := by
  rw [trim, List.dropWhile_append]
  split
  · next hnil =>
    rw [List.isEmpty_iff] at hnil
    rw [trim, hnil, List.dropWhile_eq_nil_iff.mpr h]
  · exact dropTrailing_append _ h

theorem Trimmed.trim_eq (h : Trimmed s) : trim s = s := by
  have hhead : s.dropWhile isBlank = s := by
    cases s with
    | nil => rfl
    | cons c s => exact List.dropWhile_cons_of_neg (by simp [h.head c rfl])
  rw [trim, hhead, dropTrailing_of_getLast? h.last]

theorem trim_padded (hf : Blank front) (hs : Trimmed s) (hb : Blank back) :
    trim (front ++ s ++ back) = s := by
  rw [trim_append_blank _ hb, trim_blank_append _ hf, hs.trim_eq]

/-- A text is its trimmed part with blanks on both sides. -/
theorem exists_trim (s : List Char) :
    ∃ front back, Blank front ∧ Blank back ∧ s = front ++ trim s ++ back := by
  obtain ⟨back, he, hback, -⟩ := dropTrailing_cut isBlank (s.dropWhile isBlank)
  refine ⟨s.takeWhile isBlank, back, fun c hc => List.mem_takeWhile_imp hc, hback, ?_⟩
  rw [List.append_assoc, trim, ← he, List.takeWhile_append_dropWhile]

theorem trim_eq_nil_iff : trim s = [] ↔ Blank s := by
  constructor
  · intro h
    obtain ⟨front, back, hfront, hback, he⟩ := exists_trim s
    rw [he, h, List.append_nil]
    exact fun c hc => (List.mem_append.mp hc).elim (hfront c) (hback c)
  · intro h
    rw [← List.nil_append s, trim_append_blank [] h]
    rfl

/-- A character that is not blank keeps what stands between it and the ends, but for blanks. -/
theorem trim_append_cons (front back : List Char) (h : isBlank c = false) :
    trim (front ++ c :: back) = front.dropWhile isBlank ++ c :: dropTrailing isBlank back := by
  have hdrop : (front ++ c :: back).dropWhile isBlank = front.dropWhile isBlank ++ c :: back := by
    rw [List.dropWhile_append]
    split
    · next hnil =>
      rw [List.isEmpty_iff] at hnil
      rw [hnil, List.dropWhile_cons_of_neg (by simp [h]), List.nil_append]
    · rfl
  rw [trim, hdrop, dropTrailing_append_cons _ _ h]

theorem trim_dropWhile (s : List Char) : trim (s.dropWhile isBlank) = trim s := by
  have hfront : Blank (s.takeWhile isBlank) := fun c hc => List.mem_takeWhile_imp hc
  rw [← trim_blank_append _ hfront, List.takeWhile_append_dropWhile]

theorem trim_dropTrailing (s : List Char) : trim (dropTrailing isBlank s) = trim s := by
  obtain ⟨back, he, hback, -⟩ := dropTrailing_cut isBlank s
  rw [← trim_append_blank _ hback, ← he]

end ContractLinker.Text
