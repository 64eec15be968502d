import ContractLinker.Proofs.Token.Lexeme
import ContractLinker.Token.Sequence

/-!
# Rows of lexemes

`exists_isRowBefore`: reading a text takes a row of lexemes off its front, until nothing is left or
what is left cannot be read. `read_append`: a row in front of a text is read as it stands, and then
the text from where the row ends. `read_eq_ok_iff`: so a source has tokens exactly if it is the
text of a row of lexemes, each of which fits the text behind it, and then its tokens are those of
the row.
-/

namespace ContractLinker

/-- What a token says, without where it stands. -/
def Token.content (t : Token) : Token.Kind × String := (t.kind, t.text)

/-- The lexeme that is read as a token. -/
def Token.lexeme (t : Token) : Lexeme := .token t.kind t.text.toList

namespace Lexeme

def text (ls : List Lexeme) : List Char := ls.flatMap spelling

@[simp] theorem text_nil : text [] = [] := rfl

@[simp] theorem text_cons (l : Lexeme) (ls : List Lexeme) :
    text (l :: ls) = l.spelling ++ text ls := rfl

@[simp] theorem text_append (ls ms : List Lexeme) : text (ls ++ ms) = text ls ++ text ms := by
  simp [text]

/-- Lexemes that are read one after the other. -/
def IsRow : List Lexeme → Prop
  | [] => True
  | l :: ls => l.Formed ∧ l.Fits (text ls) ∧ IsRow ls

instance decidableIsRow : DecidablePred IsRow
  | [] => .isTrue trivial
  | l :: ls =>
    have := decidableIsRow ls
    match h : l.spelling ++ text ls with
    | [] => .isFalse fun ⟨hl, _, _⟩ => hl.spelling_ne_nil (List.append_eq_nil_iff.mp h).1
    | c :: rest =>
      decidable_of_iff (first c rest = .ok (l, text ls) ∧ IsRow ls)
        (by simp [first_eq_ok_iff, h, IsRow, and_assoc])

theorem IsRow.formed {ls : List Lexeme} (h : IsRow ls) {l : Lexeme} (hl : l ∈ ls) : l.Formed := by
  induction ls with
  | nil => cases hl
  | cons m ls ih =>
    obtain ⟨hm, -, hls⟩ := h
    rcases List.mem_cons.mp hl with rfl | hl
    · exact hm
    · exact ih hls hl

/-- Lexemes that are read one after the other in front of a text. -/
def IsRowBefore (behind : List Char) : List Lexeme → Prop
  | [] => True
  | l :: ls => l.Formed ∧ l.Fits (text ls ++ behind) ∧ IsRowBefore behind ls

theorem isRowBefore_nil_iff {ls : List Lexeme} : IsRowBefore [] ls ↔ IsRow ls := by
  induction ls with
  | nil => exact Iff.rfl
  | cons l ls ih => simp [IsRowBefore, IsRow, ih]

theorem exists_isRowBefore (s : List Char) :
    ∃ ls rest, text ls ++ rest = s ∧ IsRowBefore rest ls ∧
      (rest = [] ∨ ∃ c more refusal, rest = c :: more ∧ first c more = .error refusal) := by
  cases s with
  | nil => exact ⟨[], [], rfl, trivial, .inl rfl⟩
  | cons c more =>
    cases hfirst : first c more with
    | error refusal =>
      exact ⟨[], c :: more, rfl, trivial, .inr ⟨c, more, refusal, rfl, hfirst⟩⟩
    | ok taken =>
      obtain ⟨l, behind⟩ := taken
      obtain ⟨hformed, hfits, hspelled⟩ := first_eq_ok_iff.mp hfirst
      obtain ⟨ls, rest, he, hrow, hstop⟩ := exists_isRowBefore behind
      refine ⟨l :: ls, rest, by simpa [he] using hspelled, ⟨hformed, ?_, hrow⟩, hstop⟩
      rwa [he]
termination_by s.length
decreasing_by exact length_behind_first hfirst

/-- The tokens of a row that starts at `p`. -/
def sequence (p : Position) : List Lexeme → Token.Sequence
  | [] => ⟨[], p⟩
  | l :: ls => (sequence (p.after l.spelling) ls).push p l

def content? : Lexeme → Option (Token.Kind × String)
  | .layout _ => none
  | .token kind text => some (kind, String.ofList text)

theorem content_sequence (p : Position) (ls : List Lexeme) :
    (sequence p ls).tokens.map Token.content = ls.filterMap content? := by
  induction ls generalizing p with
  | nil => rfl
  | cons l ls ih =>
    cases l with
    | layout s => exact ih _
    | token kind s => exact congrArg ((kind, String.ofList s) :: ·) (ih _)

theorem exists_of_mem_tokens {p : Position} {ls : List Lexeme} {t : Token}
    (h : t ∈ (sequence p ls).tokens) : ∃ s, .token t.kind s ∈ ls ∧ t.text = String.ofList s := by
  have hc : t.content ∈ ls.filterMap content? := by
    rw [← content_sequence p]
    exact List.mem_map_of_mem h
  obtain ⟨l, hl, he⟩ := List.mem_filterMap.mp hc
  cases l with
  | layout s => cases he
  | token kind s =>
    simp only [content?, Token.content, Option.some.injEq, Prod.mk.injEq] at he
    obtain ⟨rfl, htext⟩ := he
    exact ⟨s, hl, htext.symm⟩

end Lexeme

namespace Token.Sequence

open Lexeme

variable {p : Position} {c : Char} {rest behind s : List Char} {l : Lexeme} {ls : List Lexeme}

/-- Puts tokens in front. -/
def prepend (ts : List Token) (seq : Sequence) : Sequence := { seq with tokens := ts ++ seq.tokens }

theorem finish_sequence (p : Position) (ls : List Lexeme) :
    (sequence p ls).finish = p.after (Lexeme.text ls) := by
  induction ls generalizing p with
  | nil => rfl
  | cons l ls ih => simpa [Lexeme.sequence, push, Position.after_append] using ih _

theorem read_of_error {refusal : Refusal} (h : first c rest = .error refusal) :
    read p (c :: rest) = .error ⟨refusal.cause, p.after refusal.before⟩ := by
  rw [read]
  split
  · next herror =>
    rw [h] at herror
    cases herror
    rfl
  · next hok =>
    rw [h] at hok
    cases hok

theorem read_of_ok (h : first c rest = .ok (l, behind)) :
    read p (c :: rest) = (read (p.after l.spelling) behind).map (push p l) := by
  rw [read]
  split
  · next herror =>
    rw [h] at herror
    cases herror
  · next hok =>
    rw [h] at hok
    cases hok
    rfl

theorem read_append (h : IsRowBefore s ls) (p : Position) :
    read p (Lexeme.text ls ++ s) =
      (read (p.after (Lexeme.text ls)) s).map (prepend (sequence p ls).tokens) := by
  induction ls generalizing p with
  | nil => cases hread : read p s <;> simp [hread, Except.map, prepend, Lexeme.sequence]
  | cons l ls ih =>
    obtain ⟨hformed, hfits, hrow⟩ := h
    obtain ⟨c, rest, hspelled, hfirst⟩ := first_of_formed hformed hfits
    rw [text_cons, List.append_assoc, hspelled, read_of_ok hfirst, ih hrow, Position.after_append]
    cases read ((p.after l.spelling).after (Lexeme.text ls)) s with
    | error fault => rfl
    | ok seq => simp [Except.map, prepend, push, Lexeme.sequence]

theorem read_eq_ok_iff {seq : Token.Sequence} :
    read p s = .ok seq ↔ ∃ ls, IsRow ls ∧ Lexeme.text ls = s ∧ sequence p ls = seq := by
  have hrow : ∀ {ls}, IsRow ls → read p (Lexeme.text ls) = .ok (sequence p ls) := by
    intro ls hls
    have hread := read_append (isRowBefore_nil_iff.mpr hls) p
    rw [List.append_nil, ← finish_sequence] at hread
    simpa [read, Except.map, prepend] using hread
  constructor
  · intro h
    obtain ⟨ls, rest, rfl, hls, rfl | ⟨c, more, refusal, rfl, hrefused⟩⟩ := exists_isRowBefore s
    · rw [isRowBefore_nil_iff] at hls
      rw [List.append_nil, hrow hls] at h
      exact ⟨ls, hls, by simp, Except.ok.inj h⟩
    · rw [read_append hls, read_of_error hrefused] at h
      cases h
  · rintro ⟨ls, hls, rfl, rfl⟩
    exact hrow hls

theorem ofSource_eq_ok_iff {source : String} {seq : Token.Sequence} :
    ofSource source = .ok seq ↔
      ∃ ls, IsRow ls ∧ Lexeme.text ls = source.toList ∧ sequence .start ls = seq :=
  read_eq_ok_iff

theorem formed_of_mem_tokens {source : String} {seq : Token.Sequence}
    (h : ofSource source = .ok seq) {t : Token} (ht : t ∈ seq.tokens) : t.lexeme.Formed := by
  obtain ⟨ls, hrow, -, rfl⟩ := ofSource_eq_ok_iff.mp h
  obtain ⟨s, hmem, htext⟩ := exists_of_mem_tokens ht
  rw [lexeme, htext, String.toList_ofList]
  exact hrow.formed hmem

/-- The hexadecimal numbers of a source are address text. -/
theorem exists_address {source : String} {seq : Token.Sequence} (h : ofSource source = .ok seq)
    {t : Token} (ht : t ∈ seq.tokens) (hk : t.kind = .hexadecimal) :
    ∃ a, Address.ofText? t.text = some a := by
  have hformed := formed_of_mem_tokens h ht
  rw [lexeme, hk] at hformed
  obtain ⟨mark, digits, hmark, htext, hdigits, hany⟩ := formed_hexadecimal_iff.mp hformed
  rw [← String.ofList_toList (s := t.text), htext]
  exact ⟨_, Address.ofText?_marked hmark hdigits hany⟩

end Token.Sequence

end ContractLinker
