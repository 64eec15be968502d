import ContractLinker.Proofs.Token.Partition
import ContractLinker.Proofs.Token.Composition
import Mathlib.Data.Prod.Lex

/-!
# The order of tokens

Positions are ordered as they are read, line by line, and reading a character always leads further:
so a position stands for one place of a text, `eq_of_prefix`. The tokens of a source stand one
behind the other, `pairwise_tokens`, and a row of lexemes can be parted at each of its tokens,
`exists_split`.
-/

namespace ContractLinker

-- ---------------------------------------------------------------------------
-- Positions
-- ---------------------------------------------------------------------------

namespace Position

/-- Further up, or in the same line and further left. -/
instance : PartialOrder Position :=
  PartialOrder.lift (fun p => toLex (p.line, p.column)) fun ⟨_, _⟩ ⟨_, _⟩ h => by cases h; rfl

theorem lt_iff {p q : Position} :
    p < q ↔ p.line < q.line ∨ p.line = q.line ∧ p.column < q.column :=
  Prod.Lex.toLex_lt_toLex

theorem lt_advance (p : Position) (c : Char) : p < p.advance c := by
  rw [lt_iff]
  by_cases hc : c = '\n' <;> simp [advance, hc]

theorem le_after (p : Position) (s : List Char) : p ≤ p.after s := by
  induction s generalizing p with
  | nil => exact le_rfl
  | cons c s ih => exact (p.lt_advance c).le.trans (ih _)

theorem lt_after (p : Position) {s : List Char} (h : s ≠ []) : p < p.after s := by
  cases s with
  | nil => exact absurd rfl h
  | cons c s => exact (p.lt_advance c).trans_le (le_after _ s)

/-- Fronts of a text that lead to the same position are the same. -/
theorem eq_of_prefix {s u v : List Char} (hu : u <+: s) (hv : v <+: s)
    (h : behind u = behind v) : u = v := by
  have hnil : ∀ {u v : List Char}, u <+: v → behind u = behind v → u = v := by
    rintro u _ ⟨w, rfl⟩ h
    by_contra hne
    have hlt := lt_after (behind u) (s := w) (by rintro rfl; simp at hne)
    rw [after_behind, ← h] at hlt
    exact lt_irrefl _ hlt
  rcases List.prefix_or_prefix_of_prefix hu hv with huv | hvu
  · exact hnil huv h
  · exact (hnil hvu h.symm).symm

theorem after_of_not_mem (p : Position) {s : List Char} (h : '\n' ∉ s) :
    p.after s = ⟨p.line, p.column + s.length⟩ := by
  induction s generalizing p with
  | nil => rfl
  | cons c s ih =>
    obtain ⟨hc, hs⟩ : c ≠ '\n' ∧ '\n' ∉ s := by simpa [eq_comm] using h
    simp [ih _ hs, advance, hc, Nat.add_assoc, Nat.add_comm 1]

end Position

-- ---------------------------------------------------------------------------
-- Lexemes
-- ---------------------------------------------------------------------------

namespace Lexeme

theorem newline_ne {c : Char} (h : isWordPart c = true ∨ isLayout c = false) : c ≠ '\n' := by
  rintro rfl
  rcases h with h | h
  · rw [isWordPart_of_isLayout rfl] at h
    cases h
  · cases h

theorem BodyText.newline_not_mem {s : List Char} (h : BodyText s) : '\n' ∉ s := by
  induction h with
  | nil => simp
  | char _ _ hn _ ih => simp [hn.symm, ih]
  | escape he _ ih =>
    cases he with
    | @simple c hc =>
      have hn : c ≠ '\n' := by
        rintro rfl
        cases hc
      simp [hn.symm, ih]
    | unicode hdigits =>
      have hn : '\n' ∉ _ := fun h => newline_ne (.inl (isWordPart_of_isHexDigit (hdigits _ h))) rfl
      simp [hn, ih]

theorem NumberText.newline_not_mem {kind : Token.Kind} {s : List Char} (h : NumberText kind s) :
    '\n' ∉ s := by
  have hdigit : ∀ {c}, Text.isDigit c = true → c ≠ '\n' := by
    rintro _ hc rfl
    simp [(isLayout_cases (c := '\n') rfl).2.1] at hc
  have hparts : ∀ {s : List Char}, (∀ c ∈ s, isNumberPart c = true) → '\n' ∉ s := fun hs h =>
    newline_ne (.inl (isWordPart_of_isNumberPart (hs _ h))) rfl
  cases h with
  | whole hc hs => simp [(hdigit hc).symm, hparts hs]
  | fraction hc hs hd ht => simp [(hdigit hc).symm, hparts hs, (hdigit hd).symm, hparts ht]
  | radix hp hs =>
    have hmark := newline_ne (.inl (radixDigits?_mark hp).2)
    have hdigits : '\n' ∉ _ := fun h => newline_ne (.inl (radixDigits?_digit hp (hs _ h))) rfl
    simp [hmark.symm, hdigits]

/-- No token runs over the end of a line. -/
theorem Formed.newline_not_mem {kind : Token.Kind} {s : List Char}
    (h : (Lexeme.token kind s).Formed) : '\n' ∉ kind.spell s := by
  suffices hs : '\n' ∉ s by
    unfold Token.Kind.spell
    split <;> simp [hs]
  generalize hl : Lexeme.token kind s = l at h
  cases h with
  | blank | lineComment | blockComment => cases hl
  | @word c s hc hs =>
    cases hl
    have hstart : c ≠ '\n' := by
      rintro rfl
      simp [(isLayout_cases (c := '\n') rfl).1] at hc
    have hrest : '\n' ∉ s := fun h => newline_ne (.inl (hs _ h)) rfl
    simp [hstart.symm, hrest]
  | number _ ht => cases hl; exact ht.newline_not_mem
  | string hs => cases hl; exact hs.newline_not_mem
  | symbol hc => cases hl; simp [(newline_ne (.inr (symbol?_cases hc).1)).symm]

/-- What fits in front of a text fits in front of a front of it. -/
theorem Fits.of_append {l : Lexeme} {s t : List Char} (h : l.Fits (s ++ t)) : l.Fits s := by
  have hstops : ∀ {p : Char → Bool}, Stops p (s ++ t) → Stops p s := by
    intro p hp c hc
    exact hp c (List.mem_head?_append_of_mem_head? hc)
  unfold Fits at h ⊢
  split
  case h_5 =>
    refine ⟨hstops h.1, fun hall hpoint => h.2 hall ?_⟩
    obtain ⟨d, more, rfl, hd⟩ := hpoint
    exact ⟨d, more ++ t, rfl, hd⟩
  case h_7 => trivial
  all_goals exact hstops h

variable {ls ms : List Lexeme} {s t : List Char} {p : Position}

theorem isRowBefore_append_iff :
    IsRowBefore s (ls ++ ms) ↔ IsRowBefore (text ms ++ s) ls ∧ IsRowBefore s ms := by
  induction ls with
  | nil => simp [IsRowBefore]
  | cons l ls ih => simp [IsRowBefore, ih, and_assoc]

theorem isRow_append_iff : IsRow (ls ++ ms) ↔ IsRowBefore (text ms) ls ∧ IsRow ms := by
  simp [← isRowBefore_nil_iff, isRowBefore_append_iff]

theorem IsRowBefore.of_append (h : IsRowBefore (s ++ t) ls) : IsRowBefore s ls := by
  induction ls with
  | nil => trivial
  | cons l ls ih =>
    obtain ⟨hformed, hfits, hrow⟩ := h
    rw [← List.append_assoc] at hfits
    exact ⟨hformed, hfits.of_append, ih hrow⟩

theorem IsRowBefore.isRow (h : IsRowBefore s ls) : IsRow ls :=
  isRowBefore_nil_iff.mp (.of_append (s := []) h)

theorem tokens_sequence_append (p : Position) (ls ms : List Lexeme) :
    (sequence p (ls ++ ms)).tokens =
      (sequence p ls).tokens ++ (sequence (p.after (text ls)) ms).tokens := by
  induction ls generalizing p with
  | nil => rfl
  | cons l ls ih => simp [sequence, Token.Sequence.push, ih, Position.after_append]

/-- A row with a token parts in front of the token and behind it. -/
theorem exists_split {t : Token} {ts us : List Token}
    (h : (sequence p ls).tokens = ts ++ t :: us) : ∃ front back, ls = front ++ t.lexeme :: back ∧
      (sequence p front).tokens = ts ∧ t.position = p.after (text front) ∧
      (sequence (p.after (text front ++ t.spelling)) back).tokens = us := by
  induction ls generalizing p ts with
  | nil => simp [sequence] at h
  | cons l ls ih =>
    have hlater : ∀ {vs}, (sequence (p.after l.spelling) ls).tokens = vs ++ t :: us →
        ∃ front back, l :: ls = l :: front ++ t.lexeme :: back ∧
          (sequence (p.after l.spelling) front).tokens = vs ∧
          t.position = p.after (text (l :: front)) ∧
          (sequence (p.after (text (l :: front) ++ t.spelling)) back).tokens = us := by
      intro vs h
      obtain ⟨front, back, rfl, hvs, hposition, hus⟩ := ih h
      refine ⟨front, back, rfl, hvs, ?_, ?_⟩
      · simpa [Position.after_append] using hposition
      · simpa [Position.after_append] using hus
    cases l with
    | layout s =>
      obtain ⟨front, back, he, hts, hposition, hus⟩ := hlater h
      exact ⟨.layout s :: front, back, he, hts, hposition, hus⟩
    | token kind s =>
      cases ts with
      | nil =>
        obtain ⟨rfl, rfl⟩ := List.cons.inj h
        exact ⟨[], ls, by simp [Token.lexeme], rfl, rfl, by simp [Token.spelling, spelling]⟩
      | cons u ts =>
        obtain ⟨rfl, hrest⟩ := List.cons.inj h
        obtain ⟨front, back, he, hts, hposition, hus⟩ := hlater hrest
        exact ⟨.token kind s :: front, back, he, congrArg (_ :: ·) hts, hposition, hus⟩

end Lexeme

-- ---------------------------------------------------------------------------
-- Tokens
-- ---------------------------------------------------------------------------

theorem Token.finish_eq {t : Token} (h : t.lexeme.Formed) :
    t.finish = t.position.after t.spelling :=
  (t.position.after_of_not_mem h.newline_not_mem).symm

theorem Token.position_lt_finish {t : Token} (h : t.lexeme.Formed) : t.position < t.finish := by
  have hne := h.spelling_ne_nil
  rw [Token.finish_eq h]
  exact t.position.lt_after hne

namespace Token.Sequence

open Lexeme

variable {p : Position} {ls : List Lexeme} {source : String} {seq : Token.Sequence}

theorem bounds_of_mem_sequence (h : ∀ l ∈ ls, l.Formed) {t : Token}
    (ht : t ∈ (sequence p ls).tokens) : p ≤ t.position ∧ t.finish ≤ p.after (Lexeme.text ls) := by
  obtain ⟨ts, us, hsplit⟩ := List.append_of_mem ht
  obtain ⟨front, back, rfl, -, hposition, -⟩ := exists_split hsplit
  rw [Token.finish_eq (h _ (by simp)), hposition]
  refine ⟨p.le_after _, ?_⟩
  have hend := Position.le_after ((p.after (Lexeme.text front)).after t.spelling) (Lexeme.text back)
  simpa [Position.after_append, Token.lexeme, Lexeme.spelling, Token.spelling] using hend

theorem pairwise_sequence (h : ∀ l ∈ ls, l.Formed) :
    (sequence p ls).tokens.Pairwise fun t u => t.finish ≤ u.position := by
  induction ls generalizing p with
  | nil => exact .nil
  | cons l ls ih =>
    obtain ⟨hl, hls⟩ := List.forall_mem_cons.mp h
    cases l with
    | layout s => exact ih hls
    | token kind s =>
      refine .cons (fun u hu => ?_) (ih hls)
      have hfinish := Token.finish_eq (t := ⟨kind, String.ofList s, p⟩)
        (by simpa [Token.lexeme] using hl)
      rw [hfinish]
      simpa [Token.spelling, Lexeme.spelling] using (bounds_of_mem_sequence hls hu).1

/-- The tokens of a source stand one behind the other. -/
theorem pairwise_tokens (h : ofSource source = .ok seq) :
    seq.tokens.Pairwise fun t u => t.finish ≤ u.position := by
  obtain ⟨ls, hrow, -, rfl⟩ := ofSource_eq_ok_iff.mp h
  exact pairwise_sequence fun _ => hrow.formed

theorem finish_le_finish (h : ofSource source = .ok seq) {t : Token} (ht : t ∈ seq.tokens) :
    t.finish ≤ seq.finish := by
  obtain ⟨ls, hrow, -, rfl⟩ := ofSource_eq_ok_iff.mp h
  rw [finish_sequence]
  exact (bounds_of_mem_sequence (fun _ => hrow.formed) ht).2

theorem position_lt_finish_of_mem (h : ofSource source = .ok seq) {t : Token}
    (ht : t ∈ seq.tokens) : t.position < t.finish :=
  t.position_lt_finish (formed_of_mem_tokens h ht)

/-- No two tokens of a source stand at the same place, and the end of the file stands at none of
theirs. -/
theorem pairwise_position_lt (h : ofSource source = .ok seq) :
    seq.toList.Pairwise fun t u => t.position < u.position := by
  refine List.pairwise_append.mpr ⟨?_, List.pairwise_singleton _ _, ?_⟩
  · refine (pairwise_tokens h).imp_of_mem fun ht _ hle => ?_
    exact (position_lt_finish_of_mem h ht).trans_le hle
  · rintro t ht u hu
    obtain rfl := List.mem_singleton.mp hu
    exact (position_lt_finish_of_mem h ht).trans_le (finish_le_finish h ht)

/-- A token stands in a source once. -/
theorem eq_of_toList_eq (h : ofSource source = .ok seq) {t : Token} {us vs us' vs' : List Token}
    (he : seq.toList = us ++ t :: vs) (he' : seq.toList = us' ++ t :: vs') :
    us = us' ∧ vs = vs' := by
  have hlt := pairwise_position_lt h
  rw [he, List.pairwise_append, List.pairwise_cons] at hlt
  obtain ⟨-, ⟨hbehind, -⟩, hfront⟩ := hlt
  have hus : t ∉ us := fun ht => lt_irrefl _ (hfront t ht t (by simp))
  have hvs : t ∉ vs := fun ht => lt_irrefl _ (hbehind t ht)
  obtain ⟨hfronts, -, hbacks⟩ := (List.append_cons_inj_of_notMem hus hvs).mp (he.symm.trans he')
  exact ⟨hfronts, hbacks⟩

end Token.Sequence

end ContractLinker
